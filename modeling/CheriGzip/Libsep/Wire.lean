import CheriGzip.Libsep.Rpc

/-!
# What the RPC layer puts on the wire

The packed headers read back, the 64-bit sums of iovec lengths, and the scatter of a string
of bytes over reply buffers.
-/
namespace CheriGzip.Libsep

@[simp] theorem RequestHdr.bytes_length (hdr : RequestHdr) : hdr.bytes.length = sizeofHdr := by
  simp [RequestHdr.bytes, sizeofHdr]

@[simp] theorem ReplyHdr.bytes_length (hdr : ReplyHdr) : hdr.bytes.length = sizeofHdr := by
  simp [ReplyHdr.bytes, sizeofHdr]

theorem RequestHdr.ofBytes_bytes (hdr : RequestHdr) : ofBytes hdr.bytes = hdr := by
  obtain ⟨magic, seqno, opno, datalen, maxrepdatalen⟩ := hdr
  have hmagic := magic.toNat_lt
  have hseqno := seqno.toNat_lt
  have hopno := opno.toNat_lt
  have hdatalen := datalen.toNat_lt
  have hmax := maxrepdatalen.toNat_lt
  simp [ofBytes, bytes, slice, List.drop_append, List.drop_of_length_le, Nat.mod_eq_of_lt, *]

theorem ReplyHdr.ofBytes_bytes (hdr : ReplyHdr) : ofBytes hdr.bytes = hdr := by
  obtain ⟨magic, seqno, opno, datalen⟩ := hdr
  have hmagic := magic.toNat_lt
  have hseqno := seqno.toNat_lt
  have hopno := opno.toNat_lt
  have hdatalen := datalen.toNat_lt
  simp [ofBytes, bytes, slice, List.drop_append, List.drop_of_length_le, Nat.mod_eq_of_lt, *]

theorem sumLen_toNat (iov : List Bytes) : (sumLen iov).toNat = iov.flatten.length % 2 ^ 64 := by
  suffices step : ∀ (acc : UInt64),
      (iov.foldl (fun datalen v => datalen + UInt64.ofNat v.length) acc).toNat =
        (acc.toNat + iov.flatten.length) % 2 ^ 64 by
    simpa [sumLen] using step 0
  induction iov with
  | nil =>
    intro acc
    simp
  | cons v iov ih =>
    intro acc
    rw [List.foldl_cons, ih, List.flatten_cons, List.length_append]
    simp only [UInt64.toNat_add, UInt64.toNat_ofNat']
    omega

/-- The reply buffers after `data` was stored over them in order; what `data` does not
reach keeps its contents. -/
def fill : List Bytes → Bytes → List Bytes
  | [], _ => []
  | v :: rep, data =>
    (data.take v.length ++ v.drop data.length) :: fill rep (data.drop v.length)

@[simp] theorem fill_nil (rep : List Bytes) : fill rep [] = rep := by
  induction rep with
  | nil => rfl
  | cons v rep ih => simp [fill, ih]

/-- Every buffer keeps its length. -/
theorem fill_lengths (rep : List Bytes) (data : Bytes) :
    (fill rep data).map List.length = rep.map List.length := by
  induction rep generalizing data with
  | nil => rfl
  | cons v rep ih =>
    simp only [fill, List.map_cons, ih, List.length_append, List.length_take, List.length_drop]
    congr 1
    omega

/-- The buffers one after the other hold the data, and then what they held before. -/
theorem fill_flatten (rep : List Bytes) (data : Bytes) :
    (fill rep data).flatten =
      data.take rep.flatten.length ++ rep.flatten.drop data.length := by
  induction rep generalizing data with
  | nil => simp [fill]
  | cons v rep ih =>
    simp only [fill, List.flatten_cons, ih, List.length_append, List.length_drop]
    by_cases long : v.length ≤ data.length
    · have inside : v.drop data.length = [] := List.drop_eq_nil_of_le long
      rw [inside, List.drop_append, inside]
      simp [List.take_add, List.append_assoc]
    · have past : data.drop v.length = [] := List.drop_eq_nil_of_le (by omega)
      have inside : data.take v.length = data := List.take_of_length_le (by omega)
      have all : data.take (v.length + rep.flatten.length) = data :=
        List.take_of_length_le (by omega)
      have none : data.length - v.length = 0 := by omega
      rw [past, inside, all, List.drop_append_of_le_length (by omega), none]
      simp

/-- The number of bytes a round over a fresh entry asks for. -/
theorem scatter_want {datalen totlen : UInt64} {v : Bytes} (fits : v.length < 2 ^ 64)
    (more : totlen < datalen) :
    (if datalen - totlen < UInt64.ofNat v.length - 0 then datalen - totlen
      else UInt64.ofNat v.length - 0).toNat = min (datalen.toNat - totlen.toNat) v.length := by
  have left : (datalen - totlen).toNat = datalen.toNat - totlen.toNat :=
    UInt64.toNat_sub_of_le _ _ (UInt64.le_of_lt more)
  have space : (UInt64.ofNat v.length - 0).toNat = v.length := by
    simp only [UInt64.sub_zero, UInt64.toNat_ofNat']
    exact Nat.mod_eq_of_lt fits
  split
  next less =>
    rw [UInt64.lt_iff_toNat_lt, left, space] at less
    omega
  next notLess =>
    rw [UInt64.lt_iff_toNat_lt, left, space] at notLess
    omega

end CheriGzip.Libsep
