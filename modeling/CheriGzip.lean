import CheriGzip.Lib.Loop
import CheriGzip.ZWrapper.Stream
import CheriGzip.ZWrapper.Confine
import CheriGzip.ZWrapper.Transparent
import CheriGzip.Libsep.Session
import CheriGzip.Libsep.Create
import CheriGzip.Libsep.Robust
import CheriGzip.Libsep.Passing
import CheriGzip.Libsep.Shutdown
import CheriGzip.Gzip.CompressSafe
import CheriGzip.Gzip.CompressReports
import CheriGzip.Gzip.CorruptZ
import CheriGzip.Gzip.ExitStatus
import CheriGzip.Gzip.InterruptSafe
import CheriGzip.Gzip.Libcheri
import CheriGzip.Gzip.OriginalName
import CheriGzip.Gzip.PrependGzip
import CheriGzip.Gzip.PrintRatio
import CheriGzip.Gzip.Release
import CheriGzip.Gzip.Restore
import CheriGzip.Gzip.RoundTrip
import CheriGzip.Gzip.UncompressSafe
import CheriGzip.Gzip.UnpackLookups
import CheriGzip.Gzip.ZreadFailed
import CheriGzip.Gzip.GetcodeGroups
import CheriGzip.Gzipi.Show
import CheriGzip.Libz.Crc32Wrapper
import CheriGzip.Libz.FastAgrees
import CheriGzip.Libz.InflateSync
