import Adiak.Typestring.Parser
import Adiak.Values.Access

/-!
# Building a value from its arguments

`adiak_namevalue` up to its call of `adiak_raw_namevalue`: `toplevel_type` chooses how the value
argument is fetched and which member is written, `parse_typestr` then gives the datatype.
-/

namespace Adiak

/-- The value argument: what is written to `value` at once, `string_ptr` and `container_ptr`. -/
structure Fetched where
  value : AdiakValue
  stringPtr : Addr
  containerPtr : Addr

/-- A value written at once. -/
def Fetched.ofValue (value : AdiakValue) : Fetched where
  value := value
  stringPtr := 0
  containerPtr := 0

/-- The `switch` of `adiak_namevalue` on the top-level type. -/
def fetchArg (m : Memory) : AdiakType → List VArg → Except Stop (Fetched × List VArg)
  | .unset, _ => .error .null
  | .long, .long x :: ap | .ulong, .long x :: ap | .date, .long x :: ap =>
    .ok (.ofValue (.vLong x), ap)
  | .int, .int x :: ap | .uint, .int x :: ap => .ok (.ofValue (.vInt x), ap)
  | .longlong, .longlong x :: ap | .ulonglong, .longlong x :: ap =>
    .ok (.ofValue (.vLonglong x), ap)
  | .double, .double x :: ap => .ok (.ofValue (.vDouble x), ap)
  | .timeval, .ptr p :: ap => do
    let v ← m.loadTimeval p
    .ok (.ofValue (.vPtr (.timeval v)), ap)
  | .version, .ptr p :: ap | .string, .ptr p :: ap | .catstring, .ptr p :: ap
  | .jsonstring, .ptr p :: ap | .path, .ptr p :: ap =>
    .ok ({ value := .indeterminate, stringPtr := p, containerPtr := 0 }, ap)
  | .range, .ptr p :: ap | .set, .ptr p :: ap | .list, .ptr p :: ap | .tuple, .ptr p :: ap =>
    .ok ({ value := .indeterminate, stringPtr := 0, containerPtr := p }, ap)
  | _, _ => .error .undefined

/-- `t->is_reference`. -/
def AdiakDatatype.isReference : AdiakDatatype → Bool
  | .null => false
  | .node info _ => info.isReference

/-- The end of `adiak_namevalue`: the pointer that was fetched is kept or copied. A copy that fails
leaves the value as it was. -/
def storeFetched (m : Memory) (f : Fetched) (t : AdiakDatatype) : Except Stop AdiakValue :=
  if f.stringPtr ≠ 0 then
    if t.isReference then .ok (.vPtr (.caller f.stringPtr))
    else do
      let s ← m.loadCstr f.stringPtr
      .ok (.vPtr (.strdup s))
  else if f.containerPtr ≠ 0 then
    if t.isReference then .ok (.vPtr (.caller f.containerPtr))
    else
      match copyValue m t f.containerPtr with
      | .ok (v, _) => .ok v
      | .error .null => .ok f.value
      | .error e => .error e
  else .ok f.value

/-- The value and the datatype `adiak_namevalue` hands to `adiak_raw_namevalue`; `Stop.null` is its
return of `-1`. -/
def namevalueArgs (m : Memory) (typestr : List Char) (ap : List VArg) :
    Except Stop (AdiakValue × AdiakDatatype) := do
  let toptype ← toplevelType typestr
  let (f, ap) ← fetchArg m toptype ap
  let (t, _) ← parseTypestr typestr ap
  let v ← storeFetched m f t
  .ok (v, t)

end Adiak
