/-! # Features that are recognised but not supported

Some constructs of the format are understood well enough to be named and then refused, either when
a module is decoded or when an instruction that needs them is run. `Feature` lists them and
`Feature.text` is how each is named to the reader of an error.
-/

namespace Wasm

/-- A construct that is refused by name. -/
inductive Feature
  | importedFunctions
  | importedTables
  | multipleTables
  | nonFuncrefTables
  | largeTables
  | elementExpressions
  | computedOffsets
  | multiValueResults
  | multiValueBlocks
  deriving DecidableEq, Repr

/-- The wording of a refused construct. -/
def Feature.text : Feature → String
  | importedFunctions => "imported functions"
  | importedTables => "imported tables"
  | multipleTables => "multiple tables"
  | nonFuncrefTables => "non-funcref tables"
  | largeTables => "table too large"
  | elementExpressions => "element expressions"
  | computedOffsets => "non-constant element offsets"
  | multiValueResults => "multi-value results"
  | multiValueBlocks => "multi-value blocks"

end Wasm
