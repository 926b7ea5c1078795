import Wasm.Module.Basic

/-! # Sections of a module

A module's binary form is a sequence of sections, in any order and each kind any number of times.
`Sections` is what the sections seen so far say, one part for each kind; a section adds to its own
part and looks at no other. How the parts fit together is checked when all of them are there.
-/

namespace Wasm

/-- A body: inside a region of its own, groups of locals and then code to the region's end. Locals
are counted in 32 bits. -/
def Body.read : Reader Body := do
  let content ← Reader.region
  Reader.enclosed content do
    let localCount ← Reader.counted 0 fun total => do
      let count ← Leb128.u32
      let _ ← ValType.read
      if total + count < 0x100000000 then
        pure (total + count)
      else
        Reader.malformed .tooManyLocals
    let code ← Reader.rest
    pure { localCount, code }

/-- Functions to be written into the table from an offset on. -/
structure Segment where
  offset : Nat
  funcs : List Nat
  deriving DecidableEq, Repr

/-- The kinds of sections. Those that hold nothing which is run are skipped unread. -/
inductive SectionKind
  | types
  | imports
  | functions
  | tables
  | exports
  | elements
  | code
  | skipped
  deriving DecidableEq, Repr

/-- The kind of section that an id stands for. -/
def SectionKind.ofByte? (id : UInt8) : Option SectionKind :=
  match id.toNat with
  | 1 => some types
  | 2 => some imports
  | 3 => some functions
  | 4 => some tables
  | 7 => some exports
  | 9 => some elements
  | 10 => some code
  | 0 | 5 | 6 | 8 | 11 | 12 => some skipped
  | _ => none

/-- What the sections of a module say. -/
structure Sections where
  types : Array FuncType := #[]
  funcTypes : Array Nat := #[]
  table : Option Table := none
  exports : Array Export := #[]
  segments : Array Segment := #[]
  bodies : Array Body := #[]
  deriving DecidableEq, Repr

namespace Sections

/-- Reads past an import. Memories and globals are never used, so they may be imported. -/
def readImport : Reader Unit := do
  let _ ← Reader.name
  let _ ← Reader.name
  let kind ← Reader.byte
  match kind.toNat with
  | 0 => Reader.fail (.unsupported .importedFunctions)
  | 1 => Reader.fail (.unsupported .importedTables)
  | 2 => do
    let _ ← Limits.read
  | 3 => do
    let _ ← ValType.read
    let _ ← Reader.byte
  | _ => Reader.malformed .importKind

/-- Reads the type of a table and makes the table. When there is one already, a further one is
refused before its type is looked at. -/
def readTable : Option Table → Reader (Option Table)
  | some _ => Reader.fail (.unsupported .multipleTables)
  | none => do
    let type ← TableType.read
    match Table.create type with
    | .ok table => pure (some table)
    | .error e => Reader.fail e

/-- Reads an export and, if it is a function, adds it to those before it. -/
def readExport (exports : Array Export) : Reader (Array Export) := do
  let name ← Reader.name
  let kind ← Reader.byte
  let index ← Leb128.u32
  if 3 < kind.toNat then
    Reader.malformed .exportKind
  else if kind ≠ 0 then
    pure exports
  else if exports.any (·.name == name) then
    Reader.malformed .duplicateExport
  else
    pure (exports.push { name, func := index })

/-- The offset of a segment: a constant instruction and an `end`. The constant is signed, the offset
is its unsigned reading. -/
def readOffset : Reader Nat := do
  let opcode ← Reader.byte
  if opcode ≠ 0x41 then
    Reader.fail (.unsupported .computedOffsets)
  else
    let offset ← Leb128.i32
    let last ← Reader.byte
    if last ≠ 0x0B then
      Reader.malformed .endExpected
    else
      pure (BitVec.ofInt 32 offset).toNat

/-- The mark of a segment of functions. -/
def readElementKind : Reader Unit := do
  let kind ← Reader.byte
  if kind ≠ 0 then Reader.malformed .elementKind else pure ()

/-- Reads an element segment and, if it is active, adds it to those before it. -/
def readSegment (segments : Array Segment) : Reader (Array Segment) := do
  let kind ← Leb128.u32
  match kind with
  | 0 =>
    let offset ← readOffset
    let funcs ← Reader.vector Leb128.u32
    pure (segments.push { offset, funcs := funcs.toList })
  | 2 =>
    let table ← Leb128.u32
    if table ≠ 0 then
      Reader.fail (.unsupported .multipleTables)
    else
      let offset ← readOffset
      readElementKind
      let funcs ← Reader.vector Leb128.u32
      pure (segments.push { offset, funcs := funcs.toList })
  | 1 | 3 =>
    readElementKind
    let _ ← Reader.vector Leb128.u32
    pure segments
  | 4 | 5 | 6 | 7 => Reader.fail (.unsupported .elementExpressions)
  | _ => Reader.malformed .segmentKind

/-- Reads the content of a section into its part. -/
def readContent (s : Sections) : SectionKind → Reader Sections
  | .types => do
    let types ← Reader.vectorFrom s.types FuncType.read
    pure { s with types }
  | .imports => do
    Reader.counted () fun _ => readImport
    pure s
  | .functions => do
    let funcTypes ← Reader.vectorFrom s.funcTypes Leb128.u32
    pure { s with funcTypes }
  | .tables => do
    let table ← Reader.counted s.table readTable
    pure { s with table }
  | .exports => do
    let exports ← Reader.counted s.exports readExport
    pure { s with exports }
  | .elements => do
    let segments ← Reader.counted s.segments readSegment
    pure { s with segments }
  | .code => do
    let bodies ← Reader.vectorFrom s.bodies Body.read
    pure { s with bodies }
  | .skipped => pure s

/-- Reads a section: its id, its size, and within that size its content, which has to fill it. A
skipped section may hold anything. -/
def readSection (s : Sections) : Reader Sections := do
  let id ← Reader.byte
  let content ← Reader.region
  match SectionKind.ofByte? id with
  | none => Reader.malformed .sectionId
  | some .skipped => pure s
  | some kind =>
    let (s, complete) ← Reader.enclosed content do
      let s ← s.readContent kind
      let complete ← Reader.atEnd
      pure (s, complete)
    if complete then pure s else Reader.malformed .sectionSize

/-- Reads sections to the end of the input. Every section has a byte, so `fuel` need not exceed the
bytes that are left. -/
def readAll (bytes : Bytes) : (fuel : Nat) → Sections → (pos : Nat) → Except DecodeError Sections
  | 0, s, _ => .ok s
  | fuel + 1, s, pos =>
    if bytes.size ≤ pos then
      .ok s
    else
      match s.readSection bytes pos with
      | .error e => .error e
      | .ok (s, after) => readAll bytes fuel s after

/-! ### Putting the parts together -/

/-- Gives every body its type. There has to be one for each, and the types have to exist. -/
def assembleFuncs (s : Sections) : Except DecodeError (Array Func) :=
  if s.funcTypes.size ≠ s.bodies.size then
    .error (.malformed 0 .functionCount)
  else if s.funcTypes.any (s.types.size ≤ ·) then
    .error (.malformed 0 .unknownType)
  else
    .ok (Array.zipWith (fun type body => { type, body }) s.funcTypes s.bodies)

/-- Writes segments into the table one after the other. -/
def fillTable : List Segment → Option Table → Except DecodeError (Option Table)
  | [], table => .ok table
  | _ :: _, none => .error (.malformed 0 .unknownTable)
  | segment :: segments, some table =>
    match table.fill segment.offset segment.funcs with
    | .error e => .error e
    | .ok table => fillTable segments (some table)

/-- The module that the sections describe. -/
def toModule (s : Sections) : Except DecodeError Module := do
  let funcs ← s.assembleFuncs
  let table ← fillTable s.segments.toList s.table
  pure { types := s.types, funcs, exports := s.exports, table }

end Sections

namespace Module

/-- The first four bytes of every module. -/
def magic : Bytes := #[0x00, 0x61, 0x73, 0x6D]

/-- The version of the format, right behind `magic`. -/
def version : Bytes := #[0x01, 0x00, 0x00, 0x00]

/-- Reads what every module starts with. -/
def readHeader : Reader Unit := do
  let first ← Reader.take 4
  if first ≠ magic then
    Reader.fail (.malformed 0 .magic)
  else
    let second ← Reader.take 4
    if second ≠ version then Reader.fail (.malformed 4 .version) else pure ()

/-- Decodes a module from its binary form. -/
def decode (bytes : Bytes) : Except DecodeError Module := do
  let ((), pos) ← readHeader bytes 0
  let sections ← Sections.readAll bytes (bytes.size - pos) {} pos
  sections.toModule

end Module

end Wasm
