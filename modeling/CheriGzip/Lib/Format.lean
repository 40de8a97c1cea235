import CheriGzip.Lib.Bytes

/-!
# Self-delimiting compressed formats

A stream decodes from its beginning: each of its beginnings determines some of the output,
and no complete stream goes on as another one. Two beginnings of one input are comparable,
which is what makes the end of a stream inside a longer input unique.
-/
namespace CheriGzip

/-- `payload u` is the output that the beginning `u` of a stream determines, and `Ends u`
says that `u` is a complete stream. -/
structure Format where
  payload : Bytes → Bytes
  Ends : Bytes → Prop
  payload_mono : ∀ {u w}, u <+: w → payload u <+: payload w
  ends_unique : ∀ {u w}, Ends u → Ends w → u <+: w → u = w

namespace Format

variable {F : Format}

/-- Two beginnings of the same bytes. -/
theorem comparable {u w t : Bytes} (hu : u <+: t) (hw : w <+: t) : u <+: w ∨ w <+: u :=
  List.prefix_or_prefix_of_prefix hu hw

/-- An input has at most one complete stream at its beginning. -/
theorem ends_eq {u w t : Bytes} (hu : F.Ends u) (hw : F.Ends w) (pu : u <+: t) (pw : w <+: t) :
    u = w := by
  rcases comparable pu pw with less | less
  · exact F.ends_unique hu hw less
  · exact (F.ends_unique hw hu less).symm

/-- An input that is a complete stream and more determines both parts. -/
theorem ends_append {u w s t : Bytes} (hu : F.Ends u) (hw : F.Ends w)
    (same : u ++ s = w ++ t) : u = w ∧ s = t := by
  have eq := F.ends_eq hu hw ⟨s, rfl⟩ ⟨t, same.symm⟩
  subst eq
  exact ⟨rfl, List.append_cancel_left same⟩

end Format

end CheriGzip
