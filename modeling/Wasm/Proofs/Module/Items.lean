import Wasm.Proofs.Module.Source

/-!
What the sections of a module consist of, read from its forms.

Every part of the grammar is read as what it is a form of. Bodies count their locals, and exports
and segments are added to those before them.

* `Reader.Reads.region`, `Reader.Reads.name`: what states its own size;
* `FuncType.IsForm.reads`, `Limits.IsTable.reads`: types;
* `Body.reads_of_isBody`: bodies;
* `Sections.reads_export`, `Sections.reads_segment`: exports and segments.
-/

namespace Wasm

open Leb128

/-! ### Regions and names -/

theorem Leb128.IsUnsigned.ne_nil {bits value : Nat} {bytes : List UInt8}
    (form : IsUnsigned bits bytes value) : bytes ≠ [] := by
  cases form with
  | last => exact List.cons_ne_nil _ _
  | more => exact List.cons_ne_nil _ _

namespace Reader.Reads

variable {α : Type}

theorem u32 {bytes : List UInt8} {value : Nat} (form : IsUnsigned 32 bytes value) :
    Reads Leb128.u32 bytes value :=
  form.reads (by decide) (by decide)

theorem region {size xs : List UInt8} (count : IsUnsigned 32 size xs.length) :
    Reads Reader.region (size ++ xs) xs.toArray :=
  bind_take count.ne_nil (u32 count)

theorem name {bytes : List UInt8} {text : String} (form : IsRegion IsText bytes text) :
    Reads Reader.name bytes text := by
  obtain ⟨count, rfl⟩ := form
  refine .position fun start => ?_
  refine (region count).map ?_
  have read : String.fromUTF8? ⟨text.toUTF8.data.toList.toArray⟩ = some text :=
    dif_pos text.isValidUTF8
  rw [read]
  exact .pure _

/-- A reader of some bytes, on nothing but these. -/
theorem run {reader : Reader α} {xs : List UInt8} {a : α} (reads : Reads reader xs a) :
    reader xs.toArray 0 = .ok (a, xs.length) := by
  have all := reads xs.toArray 0 (BytesAt.toList xs.toArray)
  rwa [Nat.zero_add] at all

end Reader.Reads

/-! ### What sections consist of -/

open Reader (Reads)

theorem FuncType.IsForm.reads {bytes : List UInt8} {type : FuncType} (form : IsForm bytes type) :
    Reads FuncType.read bytes type := by
  have element : ∀ xs t, ValType.IsForm xs t → Reads ValType.read xs t := by
    rintro xs t rfl
    exact t.reads
  obtain ⟨takes, gives⟩ := form
  refine (Reads.byte 0x60).bind ?_
  rw [if_neg (by decide)]
  refine (takes.reads element).bind ((gives.reads element).map ?_)
  rw [List.toList_toArray, List.toList_toArray, new_params_results]
  exact .pure type

theorem Limits.IsForm.reads {bytes : List UInt8} {limits : Limits} (form : IsForm bytes limits) :
    Reads Limits.read bytes limits := by
  cases form with
  | least lower => exact (Reads.byte 0x00).bind ((Reads.u32 lower).map (.pure _))
  | both lower upper =>
    exact (Reads.byte 0x01).bind ((Reads.u32 lower).bind ((Reads.u32 upper).map (.pure _)))

theorem Limits.IsTable.reads {bytes : List UInt8} {limits : Limits} (form : IsTable bytes limits) :
    Reads TableType.read bytes ⟨.funcref, limits⟩ := by
  obtain ⟨form⟩ := form
  refine (ValType.reads .funcref).bind ?_
  rw [if_pos (.inl rfl)]
  exact form.reads.map (.pure _)

/-- The empty table of the least size that some limits allow. -/
def Limits.blank (limits : Limits) : Table :=
  ⟨Array.replicate limits.min none⟩

theorem Limits.create_blank (limits : Limits) (few : limits.min ≤ Table.maxSize)
    (ordered : ∀ max ∈ limits.max, limits.min ≤ max) :
    Table.create ⟨.funcref, limits⟩ = .ok limits.blank := by
  have unordered : ¬ limits.max.any (· < limits.min) = true := by
    intro less
    obtain ⟨max, present, below⟩ := (Option.any_eq_true _ _).mp less
    exact Nat.not_lt.mpr (ordered max present) (of_decide_eq_true below)
  rw [Table.create, if_neg (not_not_intro rfl), if_neg unordered, if_neg (Nat.not_lt.mpr few)]
  rfl

/-- Groups of locals are counted, and the count does not overflow on the way if it does not in the
end. -/
theorem LocalGroup.reads_counted {bytes : List UInt8} {groups : List LocalGroup}
    (form : IsVector LocalGroup.IsForm bytes groups)
    (few : (groups.map (·.count)).sum < 2 ^ 32) :
    Reads (Reader.counted 0 fun total => do
      let count ← Leb128.u32
      let _ ← ValType.read
      if total + count < 0x100000000 then
        pure (total + count)
      else
        Reader.malformed .tooManyLocals) bytes (groups.map (·.count)).sum := by
  refine form.reads_counted (fun before => (before.map (·.count)).sum) ?_
  intro before group after xs split item
  obtain ⟨count⟩ := item
  have whole : (groups.map (·.count)).sum =
      (before.map (·.count)).sum + group.count + (after.map (·.count)).sum := by
    simp [split, Nat.add_assoc]
  have sum : ((before ++ [group]).map (·.count)).sum =
      (before.map (·.count)).sum + group.count := by simp
  refine (Reads.u32 count).bind ((ValType.reads group.type).map ?_)
  rw [if_pos (by omega), sum]
  exact .pure _

/-- A body is read with as many locals as its groups say together. -/
theorem Body.reads_of_isBody {bytes : List UInt8} {func : Source.Func}
    (form : IsRegion Source.Func.IsBody bytes func) (few : func.localCount < 2 ^ 32) :
    Reads Body.read bytes func.body := by
  obtain ⟨count, @⟨groups, _, locals⟩⟩ := form
  refine (Reads.region count).map (.enclosed (groups ++ func.code).length ?_)
  have written : BytesAt (groups ++ func.code).toArray 0 groups :=
    (BytesAt.append_iff.mp (BytesAt.toList (groups ++ func.code).toArray)).1
  have rest : (groups ++ func.code).toArray.extract groups.length (groups ++ func.code).length =
      func.code.toArray := by
    simp
  rw [Reader.bind_ok (LocalGroup.reads_counted locals few _ 0 written), Nat.zero_add]
  simp only [Reader.bind_apply, Reader.rest, List.size_toArray, rest]
  rfl

namespace Sections

/-- Reading an export of a function whose name is new adds it, and reading another export adds
nothing. -/
theorem reads_export {bytes : List UInt8} {e : Source.Export} {exports : Array Export}
    (form : e.IsForm bytes) (fresh : ∀ other ∈ exports, e.kind = .func → other.name ≠ e.name) :
    Reads (readExport exports) bytes (exports ++ e.func?.toArray) := by
  obtain ⟨named, refers⟩ := form
  have known : ¬ 3 < e.kind.byte.toNat := by
    cases e.kind <;> decide
  refine (Reads.name named).bind ((Reads.byte _).bind ((Reads.u32 refers).map ?_))
  rw [if_neg known]
  by_cases func : e.kind = .func
  · have unseen : ¬ exports.any (·.name == e.name) = true := by
      intro seen
      obtain ⟨other, member, same⟩ := Array.any_eq_true'.mp seen
      exact fresh other member func (eq_of_beq same)
    have zero : ¬ e.kind.byte ≠ 0 := by
      rw [func]
      decide
    rw [if_neg zero, if_neg unseen, Source.Export.func?, if_pos func]
    exact .pure _
  · have other : e.kind.byte ≠ 0 := by
      revert func
      cases e.kind <;> decide
    rw [if_pos other, Source.Export.func?, if_neg func]
    exact .pure _

theorem reads_offset {bytes : List UInt8} {offset : Nat} (form : Source.IsOffset bytes offset) :
    Reads readOffset bytes offset := by
  obtain ⟨constant⟩ := form
  refine (Reads.byte 0x41).bind ?_
  rw [if_neg (by decide)]
  refine (constant.reads (by decide) (by decide)).bind ((Reads.byte 0x0B).map ?_)
  rw [if_neg (by decide)]
  exact .pure _

theorem reads_segment {bytes : List UInt8} {segment : Source.Segment} (segments : Array Segment)
    (form : segment.IsForm bytes) :
    Reads (readSegment segments) bytes (segments.push segment.toSegment) := by
  have elements : ∀ {xs : List UInt8}, IsVector (IsUnsigned 32) xs segment.funcs →
      Reads (Reader.vector Leb128.u32) xs segment.funcs.toArray :=
    fun form => form.reads fun _ _ => Reads.u32
  cases form with
  | implicit _ flagged offset funcs =>
    exact (Reads.u32 flagged).bind ((reads_offset offset).bind ((elements funcs).map (.pure _)))
  | explicit _ flagged first offset funcs =>
    refine (Reads.u32 flagged).bind ((Reads.u32 first).bind ?_)
    rw [if_neg (by decide)]
    refine (reads_offset offset).bind ?_
    have kind : Reads readElementKind [0x00] () := (Reads.byte 0x00).map (.pure _)
    exact kind.bind ((elements funcs).map (.pure _))

end Sections

end Wasm
