import Mathlib.Algebra.GroupWithZero.Nat
import Mathlib.Algebra.Order.BigOperators.Group.List
import Mathlib.Algebra.Order.Group.Nat
import Wasm.Proofs.Binary.Minimal
import Wasm.Proofs.Module.Filling

/-!
Modules as they are written down, and their binary forms.

A `Source` says what a module consists of: types, functions with their groups of locals and the
bytes of their code, exports of all kinds, at most one table, and the segments that are written into
it. `Source.IsForm` is the grammar of its binary forms. As integers may be written with more groups
than they need, and a section that is empty may be left out, a source has many of them;
`Source.encode` is the one in which integers are as short as can be and every section is there.

* `Source.WellFormed`: what the parts of a source have to agree on;
* `Source.toModule`: the module that a source describes;
* `Source.isForm_encode`: `Source.encode` gives a form, if the size of every section can be written.
-/

namespace Wasm

open Leb128

/-! ### Sources -/

/-- Some locals of one type that are declared together. -/
structure LocalGroup where
  count : Nat
  type : ValType
  deriving DecidableEq, Repr

/-- What an export refers to. -/
inductive ExportKind
  | func
  | table
  | memory
  | global
  deriving DecidableEq, Repr

namespace Source

/-- A function: the index of its type, its groups of locals, and its code. -/
structure Func where
  type : Nat
  locals : List LocalGroup
  code : List UInt8
  deriving DecidableEq, Repr

/-- How many locals a function declares. -/
def Func.localCount (func : Func) : Nat :=
  (func.locals.map (·.count)).sum

/-- The body that is run. -/
def Func.body (func : Func) : Body :=
  { localCount := func.localCount, code := func.code.toArray }

structure Export where
  name : String
  kind : ExportKind
  index : Nat
  deriving DecidableEq, Repr

/-- The function that is exported, if it is one. -/
def Export.func? (e : Export) : Option Wasm.Export :=
  if e.kind = .func then some { name := e.name, func := e.index } else none

/-- A segment of functions. It names the table that it is written into if it is `explicit`. -/
structure Segment extends Wasm.Segment where
  explicit : Bool
  deriving DecidableEq, Repr

end Source

/-- What a module consists of. -/
structure Source where
  types : List FuncType
  funcs : List Source.Func
  table : Option Limits
  exports : List Source.Export
  segments : List Source.Segment
  deriving DecidableEq, Repr

namespace Source

/-- The exported functions. -/
def funcExports (source : Source) : List Wasm.Export :=
  source.exports.filterMap Export.func?

/-- The segments as they are written into the table. -/
def fillings (source : Source) : List Wasm.Segment :=
  source.segments.map (·.toSegment)

/-- The parts of a source agree with each other: functions have types that exist, exported functions
have names of their own, and segments have room in the table. Numbers are such that 32 bits hold
them. -/
structure WellFormed (source : Source) : Prop where
  types : ∀ func ∈ source.funcs, func.type < source.types.length
  locals : ∀ func ∈ source.funcs, func.localCount < 2 ^ 32
  names : (source.funcExports.map (·.name)).Nodup
  exports : ∀ e ∈ source.exports, e.index < 2 ^ 32
  table : ∀ limits ∈ source.table, limits.min ≤ Table.maxSize ∧
    ∀ max ∈ limits.max, limits.min ≤ max ∧ max < 2 ^ 32
  segments : ∀ segment ∈ source.segments,
    (∃ limits ∈ source.table, segment.offset + segment.funcs.length ≤ limits.min) ∧
      ∀ func ∈ segment.funcs, func < 2 ^ 32

/-- The module that a source describes. A slot of its table holds what the last segment that reaches
the slot puts there. -/
def toModule (source : Source) : Module :=
  { types := source.types.toArray
    funcs := (source.funcs.map fun func => { type := func.type, body := func.body }).toArray
    exports := source.funcExports.toArray
    table := source.table.map fun limits =>
      ⟨Array.ofFn fun slot : Fin limits.min => Segment.last? source.fillings slot⟩ }

end Source

/-! ### The grammar -/

/-- The bytes are a form of something in a region of its own: their number, then these. -/
inductive IsRegion {α : Type} (IsContent : List UInt8 → α → Prop) : List UInt8 → α → Prop where
  | intro {size content a} (count : IsUnsigned 32 size content.length)
      (form : IsContent content a) : IsRegion IsContent (size ++ content) a

/-- The bytes are a section of a module: an id, and a vector in a region of its own. A section that
holds nothing may be left out. -/
inductive IsSection {α : Type} (id : UInt8) (IsItem : List UInt8 → α → Prop) :
    List UInt8 → List α → Prop where
  | omitted : IsSection id IsItem [] []
  | written {bytes items} (content : IsRegion (IsVector IsItem) bytes items) :
      IsSection id IsItem (id :: bytes) items

/-- The byte of a value type. -/
def ValType.IsForm (bytes : List UInt8) (type : ValType) : Prop :=
  bytes = [type.byte]

/-- The bytes are a form of a function type. -/
inductive FuncType.IsForm : List UInt8 → FuncType → Prop where
  | intro {params results type} (takes : IsVector ValType.IsForm params type.params)
      (gives : IsVector ValType.IsForm results type.results) :
      IsForm (0x60 :: (params ++ results)) type

/-- The bytes are a form of the size of a table. -/
inductive Limits.IsForm : List UInt8 → Limits → Prop where
  | least {bytes min} (lower : IsUnsigned 32 bytes min) : IsForm (0x00 :: bytes) ⟨min, none⟩
  | both {lowerBytes upperBytes min max} (lower : IsUnsigned 32 lowerBytes min)
      (upper : IsUnsigned 32 upperBytes max) :
      IsForm (0x01 :: (lowerBytes ++ upperBytes)) ⟨min, some max⟩

/-- The bytes are a form of the type of a table of functions. -/
inductive Limits.IsTable : List UInt8 → Limits → Prop where
  | intro {bytes limits} (form : Limits.IsForm bytes limits) :
      IsTable (ValType.funcref.byte :: bytes) limits

/-- The bytes are a form of a group of locals. -/
inductive LocalGroup.IsForm : List UInt8 → LocalGroup → Prop where
  | intro {bytes group} (count : IsUnsigned 32 bytes group.count) :
      IsForm (bytes ++ [group.type.byte]) group

/-- The bytes of a name. -/
def IsText (bytes : List UInt8) (name : String) : Prop :=
  bytes = name.toUTF8.data.toList

/-- The byte of a kind of export. -/
def ExportKind.byte : ExportKind → UInt8
  | func => 0
  | table => 1
  | memory => 2
  | global => 3

namespace Source

/-- The bytes are a form of the body of a function: its groups of locals and then its code. -/
inductive Func.IsBody : List UInt8 → Func → Prop where
  | intro {groups func} (locals : IsVector LocalGroup.IsForm groups func.locals) :
      IsBody (groups ++ func.code) func

/-- The bytes are a form of an export. -/
inductive Export.IsForm : List UInt8 → Export → Prop where
  | intro {name index e} (named : IsRegion IsText name e.name)
      (refers : IsUnsigned 32 index e.index) : IsForm (name ++ e.kind.byte :: index) e

/-- The bytes are a form of the offset of a segment: a constant, whose unsigned reading is the
offset, and an `end`. -/
inductive IsOffset : List UInt8 → Nat → Prop where
  | intro {bytes value} (constant : IsSigned 32 bytes value) :
      IsOffset (0x41 :: (bytes ++ [0x0B])) (BitVec.ofInt 32 value).toNat

/-- The bytes are a form of a segment. One that is explicit names the first table and says that it
consists of functions. -/
inductive Segment.IsForm : List UInt8 → Segment → Prop where
  | implicit {flag start elements segment} (kind : segment.explicit = false)
      (flagged : IsUnsigned 32 flag 0) (offset : IsOffset start segment.offset)
      (funcs : IsVector (IsUnsigned 32) elements segment.funcs) :
      IsForm (flag ++ (start ++ elements)) segment
  | explicit {flag table start elements segment} (kind : segment.explicit = true)
      (flagged : IsUnsigned 32 flag 2) (first : IsUnsigned 32 table 0)
      (offset : IsOffset start segment.offset)
      (funcs : IsVector (IsUnsigned 32) elements segment.funcs) :
      IsForm (flag ++ (table ++ (start ++ 0x00 :: elements))) segment

/-- The bytes are a form of a module with the given source. -/
inductive IsForm (source : Source) : List UInt8 → Prop where
  | intro {types funcs tables exports segments bodies}
      (typeSection : IsSection 1 FuncType.IsForm types source.types)
      (funcSection : IsSection 3 (IsUnsigned 32) funcs (source.funcs.map (·.type)))
      (tableSection : IsSection 4 Limits.IsTable tables source.table.toList)
      (exportSection : IsSection 7 Export.IsForm exports source.exports)
      (elementSection : IsSection 9 Segment.IsForm segments source.segments)
      (codeSection : IsSection 10 (IsRegion Func.IsBody) bodies source.funcs) :
      IsForm source (Module.magic.toList ++ Module.version.toList ++
        (types ++ (funcs ++ (tables ++ (exports ++ (segments ++ bodies))))))

end Source

/-! ### Writing -/

/-- The number of elements and then these. -/
def encodeVector {α : Type} (encode : α → List UInt8) (items : List α) : List UInt8 :=
  encodeUnsigned items.length ++ items.flatMap encode

/-- The number of bytes and then these. -/
def encodeRegion (content : List UInt8) : List UInt8 :=
  encodeUnsigned content.length ++ content

def FuncType.encode (type : FuncType) : List UInt8 :=
  0x60 :: (encodeVector (fun t => [ValType.byte t]) type.params ++
    encodeVector (fun t => [ValType.byte t]) type.results)

def Limits.encode : Limits → List UInt8
  | ⟨min, none⟩ => 0x00 :: encodeUnsigned min
  | ⟨min, some max⟩ => 0x01 :: (encodeUnsigned min ++ encodeUnsigned max)

def Limits.encodeTable (limits : Limits) : List UInt8 :=
  ValType.funcref.byte :: limits.encode

def LocalGroup.encode (group : LocalGroup) : List UInt8 :=
  encodeUnsigned group.count ++ [group.type.byte]

namespace Source

def Func.encode (func : Func) : List UInt8 :=
  encodeRegion (encodeVector LocalGroup.encode func.locals ++ func.code)

def Export.encode (e : Export) : List UInt8 :=
  encodeRegion e.name.toUTF8.data.toList ++ e.kind.byte :: encodeUnsigned e.index

def encodeOffset (offset : Nat) : List UInt8 :=
  0x41 :: (encodeSigned offset ++ [0x0B])

def Segment.encode (segment : Segment) : List UInt8 :=
  if segment.explicit then
    encodeUnsigned 2 ++ (encodeUnsigned 0 ++ (encodeOffset segment.offset ++
      0x00 :: encodeVector encodeUnsigned segment.funcs))
  else
    encodeUnsigned 0 ++ (encodeOffset segment.offset ++ encodeVector encodeUnsigned segment.funcs)

/-- The sections, each with its id. -/
def sections (source : Source) : List (UInt8 × List UInt8) :=
  [(1, encodeVector FuncType.encode source.types),
    (3, encodeVector encodeUnsigned (source.funcs.map (·.type))),
    (4, encodeVector Limits.encodeTable source.table.toList),
    (7, encodeVector Export.encode source.exports),
    (9, encodeVector Segment.encode source.segments),
    (10, encodeVector Func.encode source.funcs)]

/-- The form of a source in which integers are as short as can be and no section is left out. -/
def encode (source : Source) : List UInt8 :=
  Module.magic.toList ++ Module.version.toList ++
    source.sections.flatMap fun (id, content) => id :: encodeRegion content

end Source

/-! ### What is written is a form -/

section Encoding

variable {α : Type} {encode : α → List UInt8} {IsItem : List UInt8 → α → Prop}

theorem length_le_flatMap {items : List α} (some : ∀ a, encode a ≠ []) :
    items.length ≤ (items.flatMap encode).length := by
  induction items with
  | nil => exact Nat.le_refl 0
  | cons a items ih =>
    have first : 0 < (encode a).length := List.length_pos_iff.mpr (some a)
    rw [List.flatMap_cons, List.length_append, List.length_cons]
    omega

/-- What is written for elements are forms of them, one behind the other. -/
theorem areItems_flatMap {items : List α}
    (forms : ∀ a ∈ items, (encode a).length < 2 ^ 32 → IsItem (encode a) a)
    (small : (items.flatMap encode).length < 2 ^ 32) :
    AreItems IsItem (items.flatMap encode) items := by
  induction items with
  | nil => exact .nil
  | cons a items ih =>
    rw [List.flatMap_cons] at small ⊢
    rw [List.length_append] at small
    refine .cons (forms a (List.mem_cons_self ..) (by omega)) (ih ?_ (by omega))
    intro other member
    exact forms other (List.mem_cons_of_mem _ member)

/-- What is written for a vector is a form of it, if that is so for its elements and the whole is
small enough: the elements are then small, too, and not too many. -/
theorem isVector_encodeVector {items : List α} (some : ∀ a, encode a ≠ [])
    (forms : ∀ a ∈ items, (encode a).length < 2 ^ 32 → IsItem (encode a) a)
    (small : (encodeVector encode items).length < 2 ^ 32) :
    IsVector IsItem (encodeVector encode items) items := by
  rw [encodeVector, List.length_append] at small
  have count : items.length ≤ (items.flatMap encode).length := length_le_flatMap some
  exact .intro (isUnsigned_encodeUnsigned (by decide) (by omega))
    (areItems_flatMap forms (by omega))

/-- A vector with a form has a number of elements that can be written. -/
theorem IsVector.length_lt {bytes : List UInt8} {items : List α}
    (form : IsVector IsItem bytes items) : items.length < 2 ^ 32 := by
  obtain ⟨size, -⟩ := form
  exact size.lt_pow

theorem isRegion_encodeRegion {content : List UInt8} {a : α} (form : IsItem content a)
    (small : content.length < 2 ^ 32) : IsRegion IsItem (encodeRegion content) a :=
  .intro (isUnsigned_encodeUnsigned (by decide) small) form

end Encoding

theorem encodeRegion_ne_nil (content : List UInt8) : encodeRegion content ≠ [] :=
  List.append_ne_nil_of_left_ne_nil (encodeUnsigned_ne_nil _) _

theorem FuncType.encode_ne_nil (type : FuncType) : type.encode ≠ [] :=
  List.cons_ne_nil _ _

theorem FuncType.isForm_encode {type : FuncType} (small : type.encode.length < 2 ^ 32) :
    IsForm type.encode type := by
  rw [encode, List.length_cons, List.length_append] at small
  refine .intro (isVector_encodeVector ?_ ?_ (by omega)) (isVector_encodeVector ?_ ?_ (by omega))
  · exact fun _ => List.cons_ne_nil _ _
  · exact fun _ _ _ => rfl
  · exact fun _ => List.cons_ne_nil _ _
  · exact fun _ _ _ => rfl

theorem Limits.isTable_encodeTable {limits : Limits} (lower : limits.min < 2 ^ 32)
    (upper : ∀ max ∈ limits.max, max < 2 ^ 32) : IsTable limits.encodeTable limits := by
  obtain ⟨min, max⟩ := limits
  refine .intro ?_
  cases max with
  | none => exact .least (isUnsigned_encodeUnsigned (by decide) lower)
  | some max =>
    exact .both (isUnsigned_encodeUnsigned (by decide) lower)
      (isUnsigned_encodeUnsigned (by decide) (upper max rfl))

namespace Source

theorem Func.isForm_encode {func : Func} (count : func.localCount < 2 ^ 32)
    (small : func.encode.length < 2 ^ 32) : IsRegion IsBody func.encode func := by
  rw [encode, encodeRegion, List.length_append] at small
  refine isRegion_encodeRegion (.intro ?_) (by omega)
  rw [List.length_append] at small
  refine isVector_encodeVector ?_ ?_ (by omega)
  · exact fun _ => List.append_ne_nil_of_left_ne_nil (encodeUnsigned_ne_nil _) _
  · intro group member _
    have le : group.count ≤ func.localCount := List.le_sum_of_mem (List.mem_map_of_mem member)
    exact .intro (isUnsigned_encodeUnsigned (by decide) (by omega))

theorem Export.encode_ne_nil (e : Export) : e.encode ≠ [] :=
  List.append_ne_nil_of_left_ne_nil (encodeRegion_ne_nil _) _

theorem Export.isForm_encode {e : Export} (index : e.index < 2 ^ 32)
    (small : e.encode.length < 2 ^ 32) : IsForm e.encode e := by
  rw [encode, encodeRegion, List.length_append, List.length_append] at small
  exact .intro (isRegion_encodeRegion rfl (by omega)) (isUnsigned_encodeUnsigned (by decide) index)

/-- An offset that is not too large is the unsigned reading of a constant that is not negative. -/
theorem isOffset_encodeOffset {offset : Nat} (low : offset < 2 ^ 31) :
    IsOffset (encodeOffset offset) offset := by
  have constant : IsSigned 32 (encodeSigned offset) offset :=
    isSigned_encodeSigned (by decide) (by omega) (by omega)
  have form := IsOffset.intro constant
  have same : (BitVec.ofInt 32 (offset : Int)).toNat = offset := by
    rw [BitVec.toNat_ofInt]
    omega
  rwa [same] at form

theorem Segment.encode_ne_nil (segment : Segment) : segment.encode ≠ [] := by
  unfold encode
  split
  · exact List.append_ne_nil_of_left_ne_nil (encodeUnsigned_ne_nil _) _
  · exact List.append_ne_nil_of_left_ne_nil (encodeUnsigned_ne_nil _) _

theorem Segment.isForm_encode {segment : Segment} (low : segment.offset < 2 ^ 31)
    (funcs : ∀ func ∈ segment.funcs, func < 2 ^ 32) (small : segment.encode.length < 2 ^ 32) :
    IsForm segment.encode segment := by
  have elements : (encodeVector encodeUnsigned segment.funcs).length < 2 ^ 32 →
      IsVector (IsUnsigned 32) (encodeVector encodeUnsigned segment.funcs) segment.funcs := by
    refine isVector_encodeVector encodeUnsigned_ne_nil ?_
    intro func member _
    exact isUnsigned_encodeUnsigned (by decide) (funcs func member)
  have number : ∀ n, n < 2 ^ 32 → IsUnsigned 32 (encodeUnsigned n) n :=
    fun n fits => isUnsigned_encodeUnsigned (by decide) fits
  unfold encode at small ⊢
  cases kind : segment.explicit with
  | true =>
    simp only [kind, if_true, List.length_append, List.length_cons] at small ⊢
    exact .explicit kind (number 2 (by decide)) (number 0 (by decide)) (isOffset_encodeOffset low)
      (elements (by omega))
  | false =>
    simp only [kind, Bool.false_eq_true, if_false, List.length_append] at small ⊢
    exact .implicit kind (number 0 (by decide)) (isOffset_encodeOffset low) (elements (by omega))

/-- A vector that is small enough is the content of a section. -/
theorem isSection_of_isVector {α : Type} {IsItem : List UInt8 → α → Prop} {content : List UInt8}
    {items : List α} (id : UInt8) (form : IsVector IsItem content items)
    (small : content.length < 2 ^ 32) :
    IsSection id IsItem (id :: encodeRegion content) items :=
  .written (isRegion_encodeRegion form small)

/-- What is written for a source is a form of it, if all sections are small enough for their sizes
to be written. -/
theorem isForm_encode {source : Source} (wellFormed : source.WellFormed)
    (small : ∀ part ∈ source.sections, part.2.length < 2 ^ 32) : source.IsForm source.encode := by
  simp only [sections, List.forall_mem_cons] at small
  obtain ⟨typesSmall, indicesSmall, tablesSmall, exportsSmall, segmentsSmall, bodiesSmall, -⟩ :=
    small
  have types : IsVector FuncType.IsForm (encodeVector FuncType.encode source.types) source.types :=
    isVector_encodeVector FuncType.encode_ne_nil (fun _ _ => FuncType.isForm_encode) typesSmall
  have indices : IsVector (IsUnsigned 32) (encodeVector encodeUnsigned (source.funcs.map (·.type)))
      (source.funcs.map (·.type)) := by
    refine isVector_encodeVector encodeUnsigned_ne_nil ?_ indicesSmall
    intro type member _
    obtain ⟨func, declared, rfl⟩ := List.mem_map.mp member
    have inside := wellFormed.types func declared
    exact isUnsigned_encodeUnsigned (by decide) (Nat.lt_trans inside types.length_lt)
  have tables : IsVector Limits.IsTable (encodeVector Limits.encodeTable source.table.toList)
      source.table.toList := by
    refine isVector_encodeVector (fun _ => List.cons_ne_nil _ _) ?_ tablesSmall
    intro limits member _
    obtain ⟨bounded, upper⟩ := wellFormed.table limits (Option.mem_toList.mp member)
    have few : limits.min < 2 ^ 32 := Nat.lt_of_le_of_lt bounded (by decide)
    exact Limits.isTable_encodeTable few fun max given => (upper max given).2
  have exports : IsVector Export.IsForm (encodeVector Export.encode source.exports)
      source.exports :=
    isVector_encodeVector Export.encode_ne_nil
      (fun e member => Export.isForm_encode (wellFormed.exports e member)) exportsSmall
  have segments : IsVector Segment.IsForm (encodeVector Segment.encode source.segments)
      source.segments := by
    refine isVector_encodeVector Segment.encode_ne_nil ?_ segmentsSmall
    intro segment member
    obtain ⟨⟨limits, there, room⟩, funcs⟩ := wellFormed.segments segment member
    have bounded := (wellFormed.table limits there).1
    have low : segment.offset < 2 ^ 31 :=
      Nat.lt_of_le_of_lt (Nat.le_trans (Nat.le_of_add_right_le room) bounded) (by decide)
    exact Segment.isForm_encode low funcs
  have bodies : IsVector (IsRegion Func.IsBody) (encodeVector Func.encode source.funcs)
      source.funcs :=
    isVector_encodeVector (fun _ => encodeRegion_ne_nil _)
      (fun func member => Func.isForm_encode (wellFormed.locals func member)) bodiesSmall
  rw [encode, sections]
  simp only [List.flatMap_cons, List.flatMap_nil, List.append_nil]
  exact .intro (isSection_of_isVector 1 types typesSmall)
    (isSection_of_isVector 3 indices indicesSmall) (isSection_of_isVector 4 tables tablesSmall)
    (isSection_of_isVector 7 exports exportsSmall) (isSection_of_isVector 9 segments segmentsSmall)
    (isSection_of_isVector 10 bodies bodiesSmall)

end Source

end Wasm
