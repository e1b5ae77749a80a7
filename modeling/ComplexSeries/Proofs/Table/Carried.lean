import ComplexSeries.Proofs.Eval.Grows
import ComplexSeries.Proofs.Table.Repeat

/-! What setting new rows carries over. A slot is at all times what its text is compiled to afresh,
apart from integrals that it has learnt since, so a slot that is carried over is never out of date.
Rows are told apart by their texts alone: a row gets the slot of the first row that had its text, so
of two rows with one text the second one loses the integrals it has learnt. -/
namespace ComplexSeries

open Integral (Memory)
open Lexeme

variable {R : Type} [Scalar R] {settings : Settings R}

/-- The slot is what its text gives afresh, but for integrals that came later. -/
structure Slot.Fresh (settings : Settings R) (slot : Slot R) : Prop where
  compiled_eq : slot.compiled = (Slot.ofTyped settings slot.typed).compiled
  memory_prefix : (Slot.ofTyped settings slot.typed).memory <+: slot.memory

namespace Table

variable {table : Table R}

theorem Reachable.fresh (h : Reachable settings table) : ∀ slot ∈ table.slots, slot.Fresh settings := by
  refine h.forall_slots (fun typed => ⟨rfl, List.prefix_rfl⟩) fun slot hslot ts _ x n => ?_
  have hgrows : slot.memory <+: ((evaluate settings ts x n).run.run slot.memory).2 :=
    Eval.grows_evaluate settings ts x n slot.memory
  exact ⟨hslot.compiled_eq, hslot.memory_prefix.trans hgrows⟩

/-! ### The slot for a text -/

theorem typed_slotFor (table : Table R) (typed : String) : (table.slotFor typed).typed = typed := by
  rw [slotFor]
  cases hfind : table.slots.find? (·.typed == typed) with
  | none => rfl
  | some slot =>
    have htyped := List.find?_some hfind
    exact beq_iff_eq.1 htyped

theorem Reachable.fresh_slotFor (h : Reachable settings table) (typed : String) :
    (table.slotFor typed).Fresh settings := by
  have hmem : table.slotFor typed ∈ (table.setRows [typed]).slots := List.mem_cons_self
  exact (h.setRows [typed]).fresh _ hmem

theorem Reachable.compiled_slotFor (h : Reachable settings table) (typed : String) :
    (table.slotFor typed).compiled = (Slot.ofTyped settings typed).compiled := by
  rw [(h.fresh_slotFor typed).compiled_eq, typed_slotFor]

/-- A text that the table holds has the slot of the first row that holds it. -/
theorem exists_first_of_getElem? {row : Nat} {slot : Slot R} (hslot : table.slots[row]? = some slot) :
    ∃ first ≤ row, table.slots[first]? = some (table.slotFor slot.typed) ∧
      ∀ earlier < first, ∀ other, table.slots[earlier]? = some other → other.typed ≠ slot.typed := by
  have hmem : slot ∈ table.slots := List.mem_of_getElem? hslot
  obtain ⟨kept, hkept⟩ : ∃ kept, table.slots.find? (·.typed == slot.typed) = some kept :=
    Option.isSome_iff_exists.1 (List.find?_isSome.2 ⟨slot, hmem, beq_self_eq_true _⟩)
  obtain ⟨-, first, hfirst, hget, hearlier⟩ := List.find?_eq_some_iff_getElem.1 hkept
  have hbefore : ∀ earlier < first, ∀ other, table.slots[earlier]? = some other →
      other.typed ≠ slot.typed := by
    intro earlier hlt other hother
    obtain ⟨_, rfl⟩ := List.getElem?_eq_some_iff.1 hother
    simpa using hearlier earlier hlt
  refine ⟨first, ?_, ?_, hbefore⟩
  · exact not_lt.1 fun hlt => hbefore row hlt slot hslot rfl
  · rw [slotFor, hkept, List.getElem?_eq_getElem hfirst, hget]
    rfl

/-! ### Two rows of one text -/

/-- Two rows of one text, the second of which has been asked for a value. -/
def twins : Table Float :=
  (((Table.empty ⟨1, 1, 1, 4, false, none⟩).setRows ["int(0;x;1;t)", "int(0;x;1;t)"]).valueAt
    1 (.real 10) 0).2

theorem reachable_twins : Reachable ⟨1, 1, 1, 4, false, none⟩ twins := .valueAt _ _ _ (.setRows _ .empty)

theorem slots_twins :
    let tokens : List (Token Float) := [.operation (.aggregate .integral), .literal (.ofReal 0), .var 'x',
      .literal (.ofReal 1), .binder 't']
    twins.slots = [⟨"int(0;x;1;t)", .ok tokens, []⟩, ⟨"int(0;x;1;t)", .ok tokens,
      [⟨⟨[.literal (.ofReal 1)], 't', [], 0, 10⟩, .ofReal 10⟩]⟩] := by
  intro tokens
  let settings : Settings Float := ⟨1, 1, 1, 4, false, none⟩
  let start := (Table.empty settings).setRows ["int(0;x;1;t)", "int(0;x;1;t)"]
  let e : Expr Float :=
    .aggregate .integral (.const (.ofReal 0)) (.var 'x') (.const (.ofReal 1)) 't'
  let slot : Slot Float := ⟨"int(0;x;1;t)", .ok e.tokens, []⟩
  have hscan : scan "int(0;x;1;t)".toList = .ok [keyword (.aggregate .integral), lparen,
      number ['0'], separator, letter 'x', separator, number ['1'], separator, letter 't',
      rparen] := by rfl
  have hread : Expr.read settings.maxDepth "int(0;x;1;t)" = .ok e :=
    Expr.read_of_scan hscan (Expr.ofLexemes_of_sum (List.cons_ne_nil _ _) rfl (by decide))
  have htree : treeOf settings.maxDepth "int(0;x;1;t)" = .ok e :=
    treeOf_of_read (by decide +kernel) hread rfl
  have hstart : start.slots = [slot, slot] := by
    rw [slots_setRows_empty, List.map_cons, List.map_singleton, Slot.ofTyped_of_treeOf htree rfl]
  let env : Eval.Env Float := Eval.startEnv (.ofReal 10) (Complex.ofInt 0)
  have hsettings : start.settings = settings := rfl
  have hslot : start.slots[1]? = some slot := by rw [hstart]; rfl
  have hafter : (e.traced .standard settings env []).after =
      [⟨⟨[.literal (.ofReal 1)], 't', [], 0, 10⟩, .ofReal 10⟩] := by decide +kernel
  have htwins : twins =
      start.withMemory 1 [⟨⟨[.literal (.ofReal 1)], 't', [], 0, 10⟩, .ofReal 10⟩] := by
    rw [← hafter]
    exact congrArg Prod.snd
      (valueAt_tokens hsettings (compilable_of_treeOf htree) hslot rfl (.real 10) 0)
  rw [htwins, withMemory, hstart]
  rfl

/-! ### Rows that stay -/

/-- A row whose text stays gets the slot of the first row that had the text. That is compiled to the
same, so it is the row's own slot if and only if it has learnt the same integrals. -/
theorem getElem?_setRows_of_unchanged (h : Reachable settings table) {rows : List String} {row : Nat}
    {slot : Slot R} (hslot : table.slots[row]? = some slot) (hrow : rows[row]? = some slot.typed) :
    ∃ first kept, first ≤ row ∧ table.slots[first]? = some kept ∧
      (∀ earlier < first, ∀ other, table.slots[earlier]? = some other → other.typed ≠ slot.typed) ∧
      (table.setRows rows).slots[row]? = some kept ∧
      kept.typed = slot.typed ∧ kept.compiled = slot.compiled ∧
      (kept = slot ↔ kept.memory = slot.memory) := by
  obtain ⟨first, hle, hfirst, hbefore⟩ := exists_first_of_getElem? hslot
  have hkept : (table.setRows rows).slots[row]? = some (table.slotFor slot.typed) := by
    rw [setRows, List.getElem?_map, hrow, Option.map_some]
  have htyped := table.typed_slotFor slot.typed
  have hcompiled : (table.slotFor slot.typed).compiled = slot.compiled := by
    rw [h.compiled_slotFor, (h.fresh slot (List.mem_of_getElem? hslot)).compiled_eq]
  refine ⟨first, _, hle, hfirst, hbefore, hkept, htyped, hcompiled, congrArg Slot.memory, fun hmemory => ?_⟩
  calc table.slotFor slot.typed
    _ = ⟨(table.slotFor slot.typed).typed, (table.slotFor slot.typed).compiled,
          (table.slotFor slot.typed).memory⟩ := rfl
    _ = slot := by rw [htyped, hcompiled, hmemory]

theorem getElem?_setRows_of_unchanged_twins :
    let rows := ["int(0;x;1;t)", "int(0;x;1;t)"]
    ∃ slot, Reachable ⟨1, 1, 1, 4, false, none⟩ twins ∧ twins.slots[1]? = some slot ∧
      rows[1]? = some slot.typed ∧
      ∃ first kept, first ≤ 1 ∧ twins.slots[first]? = some kept ∧
        (∀ earlier < first, ∀ other, twins.slots[earlier]? = some other → other.typed ≠ slot.typed) ∧
        (twins.setRows rows).slots[1]? = some kept ∧
        kept.typed = slot.typed ∧ kept.compiled = slot.compiled ∧
        (kept = slot ↔ kept.memory = slot.memory) := by
  intro rows
  have hslots := slots_twins
  obtain ⟨slot, hslot, hrow⟩ : ∃ slot, twins.slots[1]? = some slot ∧ rows[1]? = some slot.typed := by
    rw [hslots]
    exact ⟨_, rfl, rfl⟩
  exact ⟨slot, reachable_twins, hslot, hrow,
    getElem?_setRows_of_unchanged reachable_twins hslot hrow⟩

/-- The second row had learnt an integral, and setting the same rows again takes it away. -/
theorem getElem?_setRows_twins_ne :
    let rows := ["int(0;x;1;t)", "int(0;x;1;t)"]
    Reachable ⟨1, 1, 1, 4, false, none⟩ twins ∧
      (twins.slots.map (·.typed))[1]? = rows[1]? ∧
      ((twins.slots[1]?).map fun slot => slot.memory.length) = some 1 ∧
      (((twins.setRows rows).slots[1]?).map fun slot => slot.memory.length) = some 0 ∧
      (twins.setRows rows).slots[1]? ≠ twins.slots[1]? := by
  intro rows
  have hslots := slots_twins
  have hbefore : ((twins.slots[1]?).map fun slot => slot.memory.length) = some 1 := by
    rw [hslots]
    rfl
  have hafter : (((twins.setRows rows).slots[1]?).map fun slot => slot.memory.length) = some 0 := by
    rw [setRows, List.getElem?_map]
    change some (twins.slotFor "int(0;x;1;t)").memory.length = some 0
    rw [slotFor, hslots]
    rfl
  refine ⟨reachable_twins, by rw [hslots]; rfl, hbefore, hafter, fun h => ?_⟩
  rw [h, hbefore] at hafter
  cases hafter

/-! ### All rows -/

/-- Each slot of a table is what its text is compiled to afresh, and its memory goes on from there.
New rows have one slot each, in their order, and each result is that of its own row. -/
theorem slots_up_to_date (h : Reachable settings table) :
    (∀ slot ∈ table.slots, slot.compiled = (Slot.ofTyped settings slot.typed).compiled ∧
      (Slot.ofTyped settings slot.typed).memory <+: slot.memory) ∧
    ∀ rows : List String, (table.setRows rows).slots.map (·.typed) = rows ∧
      (table.setRows rows).results =
        rows.map fun typed => (Slot.ofTyped settings typed).compiled := by
  refine ⟨fun slot hslot => ?_, fun rows => ⟨?_, ?_⟩⟩
  · have hfresh := h.fresh slot hslot
    exact ⟨hfresh.compiled_eq, hfresh.memory_prefix⟩
  · rw [setRows, List.map_map]
    exact (List.map_congr_left fun typed _ => table.typed_slotFor typed).trans (List.map_id rows)
  · rw [results, setRows, List.map_map]
    exact List.map_congr_left fun typed _ => h.compiled_slotFor typed

theorem slots_up_to_date_twins :
    Reachable ⟨1, 1, 1, 4, false, none⟩ twins ∧
      (∀ slot ∈ twins.slots,
        slot.compiled = (Slot.ofTyped ⟨1, 1, 1, 4, false, none⟩ slot.typed).compiled ∧
          (Slot.ofTyped ⟨1, 1, 1, 4, false, none⟩ slot.typed).memory <+: slot.memory) ∧
      ((twins.setRows ["x", "int(0;x;1;t)"]).slots.map (·.typed) = ["x", "int(0;x;1;t)"] ∧
        (twins.setRows ["x", "int(0;x;1;t)"]).results =
          ["x", "int(0;x;1;t)"].map fun typed =>
            (Slot.ofTyped (⟨1, 1, 1, 4, false, none⟩ : Settings Float) typed).compiled) :=
  have hreach : Reachable ⟨1, 1, 1, 4, false, none⟩ twins := reachable_twins
  ⟨hreach, (slots_up_to_date hreach).1, (slots_up_to_date hreach).2 _⟩

end Table

end ComplexSeries
