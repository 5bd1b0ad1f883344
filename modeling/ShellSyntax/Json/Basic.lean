/-!
# JSON values

`Json` keeps the entries of an object in their order. Whole numbers are unbounded; a number with a
fraction or an exponent is a binary floating-point number, given by its 64 bits.
-/

namespace ShellSyntax

inductive Json where
  | null
  | bool (value : Bool)
  | int (value : Int)
  | float (bits : UInt64)
  | string (value : String)
  | array (items : List Json)
  | object (entries : List (String × Json))

namespace Json

/-- The value of the entry with the given key. -/
def lookup? (key : String) : List (String × Json) → Option Json
  | [] => none
  | (k, v) :: rest => if k = key then some v else lookup? key rest

/-- Sets the value of a key, in its place if there is one and at the end otherwise. -/
def insert (key : String) (value : Json) : List (String × Json) → List (String × Json)
  | [] => [(key, value)]
  | (k, v) :: rest => if k = key then (k, value) :: rest else (k, v) :: insert key value rest

/-- The object of the entries read in order: of several with one key the last value counts. -/
def ofEntries (entries : List (String × Json)) : Json :=
  .object (entries.foldl (fun l (k, v) => insert k v l) [])

end Json

end ShellSyntax
