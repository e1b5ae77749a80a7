import ComplexSeries.Scalar.Double
import ComplexSeries.Proofs.Compile
import ComplexSeries.Proofs.Table.Row

/-! The tables that arise from an empty one by setting rows and asking for values. What holds of new
slots and is kept by evaluation holds of all their slots, so in each of them what compiled can be
evaluated. -/
namespace ComplexSeries

open Integral (Memory)

variable {R : Type} [Scalar R] {settings : Settings R}

namespace Table

inductive Reachable (settings : Settings R) : Table R → Prop
  | empty : Reachable settings (.empty settings)
  | setRows {table : Table R} (rows : List String) :
      Reachable settings table → Reachable settings (table.setRows rows)
  | valueAt {table : Table R} (row : Nat) (x : Abscissa R) (n : Int) :
      Reachable settings table → Reachable settings (table.valueAt row x n).2

variable {table : Table R}

theorem Reachable.settings_eq (h : Reachable settings table) : table.settings = settings := by
  induction h with
  | empty => rfl
  | setRows rows _ ih => exact ih
  | @valueAt table row x n _ ih => exact (table.frame_valueAt row x n).1.trans ih

theorem slots_setRows_empty (settings : Settings R) (rows : List String) :
    ((empty settings).setRows rows).slots = rows.map (Slot.ofTyped settings) := rfl

/-! ### What holds of every slot -/

/-- What holds of new slots and is kept by evaluation holds of all slots. -/
theorem Reachable.forall_slots {P : Slot R → Prop}
    (hnew : ∀ typed, P (Slot.ofTyped settings typed))
    (hvalue : ∀ slot : Slot R, P slot → ∀ ts, slot.compiled = .ok ts → ∀ x n : Complex R,
      P { slot with memory := ((evaluate settings ts x n).run.run slot.memory).2 })
    (h : Reachable settings table) : ∀ slot ∈ table.slots, P slot := by
  induction h with
  | empty => exact fun _ hslot => absurd hslot List.not_mem_nil
  | @setRows table rows h ih =>
    intro slot hslot
    obtain ⟨typed, -, rfl⟩ := List.mem_map.1 hslot
    unfold slotFor
    cases hfind : table.slots.find? (·.typed == typed) with
    | none =>
      rw [h.settings_eq]
      exact hnew typed
    | some slot => exact ih slot (List.mem_of_find?_eq_some hfind)
  | @valueAt table row x n h ih =>
    rw [valueAt_eq]
    refine forall_mem_modify ih fun slot hslot => ?_
    rw [h.settings_eq]
    cases hc : slot.compiled with
    | error cause =>
      rw [slot.valueAt_of_error settings x n hc]
      exact ih slot (List.mem_of_getElem? hslot)
    | ok ts =>
      rw [slot.valueAt_of_ok settings x n hc]
      exact hvalue slot (ih slot (List.mem_of_getElem? hslot)) ts hc x.value (Complex.ofInt n)

/-- Settings are kept, and the tokens of every slot can be evaluated with them. -/
structure Sound (settings : Settings R) (table : Table R) : Prop where
  settings_eq : table.settings = settings
  evaluable : ∀ slot ∈ table.slots, ∀ ts, slot.compiled = .ok ts → Evaluable settings ts

theorem evaluable_ofTyped {typed : String} {ts : List (Token R)}
    (h : (Slot.ofTyped settings typed).compiled = .ok ts) : Evaluable settings ts :=
  evaluable_of_compile (Prod.ext h rfl)

theorem Reachable.sound (h : Reachable settings table) : Sound settings table where
  settings_eq := h.settings_eq
  evaluable := h.forall_slots (fun _ _ => evaluable_ofTyped) fun _ hslot _ _ _ _ => hslot

theorem Sound.valueAt_eq_none_iff (h : Sound settings table) {row : Nat}
    {x : Abscissa R} {n : Int} :
    (table.valueAt row x n).1 = none ↔ table.slots[row]? = none ∨
      ∃ slot cause, table.slots[row]? = some slot ∧ slot.compiled = .error cause := by
  rw [valueAt_eq]
  cases hslot : table.slots[row]? with
  | none => simp
  | some slot =>
    rw [Option.bind_some]
    cases hc : slot.compiled with
    | error cause =>
      rw [slot.valueAt_of_error table.settings x n hc]
      simp [hc]
    | ok ts =>
      obtain ⟨z, after, hz⟩ := h.evaluable slot (List.mem_of_getElem? hslot) ts hc slot.memory
        x.value (Complex.ofInt n)
      have hz : (evaluate table.settings ts x.value (Complex.ofInt n)).run slot.memory =
          (.ok z, after) := by
        rw [h.settings_eq]
        exact hz
      rw [slot.valueAt_of_ok table.settings x n hc, hz]
      simp [hc, Except.toOption]

/-- A value is missing only where there is no row or the row did not compile, and whatever compiles
has a value at every point and with every memory. -/
theorem valueAt_eq_none_iff_not_compiled (settings : Settings R) :
    (∀ table, Reachable settings table → ∀ row x n,
      ((table.valueAt row x n).1 = none ↔ table.slots[row]? = none ∨
        ∃ slot cause, table.slots[row]? = some slot ∧ slot.compiled = .error cause)) ∧
    ∀ typed memory ts after, (compile settings typed).run memory = (.ok ts, after) →
      ∀ (memory' : Memory R) (x n : Complex R),
        ∃ z after', (evaluate settings ts x n).run.run memory' = (.ok z, after') :=
  ⟨fun _ h _ _ _ => h.sound.valueAt_eq_none_iff, fun _ _ _ _ h => evaluable_of_compile h⟩

/-- A sum of integrals up to its index, as deep as the limit allows, and a bracket alone, which does not
compile. -/
theorem valueAt_eq_none_iff_not_compiled_rows :
    let settings : Settings Float := ⟨2, 8, 1, 3, true, none⟩
    let typed := "sum(1;n;int(0;k;x;t);k)"
    let integral : Expr Float := .aggregate .integral (.const (.ofReal 0)) (.var 'k') (.var 'x') 't'
    let e : Expr Float := .aggregate .sum (.const (.ofReal 1)) (.var 'n') integral 'k'
    let table : Table Float := (Table.empty settings).setRows [typed, "("]
    Reachable settings table ∧
      (∀ row, (table.valueAt row (.real 2) 3).1 = none ↔ table.slots[row]? = none ∨
        ∃ slot cause, table.slots[row]? = some slot ∧ slot.compiled = .error cause) ∧
      (table.valueAt 0 (.real 2) 3).1 = some (.real 12) ∧ (table.valueAt 1 (.real 2) 3).1 = none ∧
      (compile settings typed).run [] = (.ok e.tokens, []) ∧
      ∃ z after, (evaluate settings e.tokens (.ofInt 2) (.ofInt 3)).run.run [] = (.ok z, after) := by
  intro settings typed integral e table
  have hreach : Reachable settings table := .setRows _ .empty
  have hscan : Lexeme.scan typed.toList = .ok [.keyword (.aggregate .sum), .lparen, .number ['1'],
      .separator, .letter 'n', .separator, .keyword (.aggregate .integral), .lparen, .number ['0'],
      .separator, .letter 'k', .separator, .letter 'x', .separator, .letter 't', .rparen, .separator,
      .letter 'k', .rparen] := by decide +kernel
  have hread : Expr.read settings.maxDepth typed = .ok e :=
    Expr.read_of_scan hscan (Expr.ofLexemes_of_sum (List.cons_ne_nil _ _) rfl (by decide))
  have htree : treeOf settings.maxDepth typed = .ok e :=
    treeOf_of_read (by decide +kernel) hread rfl
  have hcompile : (compile settings typed).run [] = (.ok e.tokens, []) := by
    rw [compile, htree]
    exact Prod.ext (by decide +kernel) (by decide +kernel)
  have hslot : table.slots[0]? = some ⟨typed, .ok e.tokens, []⟩ := by
    rw [slots_setRows_empty, List.map_cons, List.getElem?_cons_zero, Slot.ofTyped, hcompile]
  have hrun : ((evaluate settings e.tokens (.ofInt 2) (.ofInt 3)).run.run []).1.toOption =
      some (.ofReal 12) := by decide +kernel
  have hsmall : Scalar.abs (Scalar.zero : Float) < settings.realTolerance := by decide +kernel
  have hanswer := congrArg some (Abscissa.answer_ofReal hsmall 2 12)
  have hvalue : (table.valueAt 0 (.real 2) 3).1 = some (.real 12) := by
    rw [valueAt_eq, hslot, Option.bind_some, Slot.valueAt_of_ok _ _ _ _ rfl]
    exact (congrArg (Option.map _) hrun).trans hanswer
  have hspelled : canonical "(" = .error .unbalancedBrackets := by decide +kernel
  have hrefused : table.slots[1]? = some ⟨"(", .error .unbalancedBrackets, []⟩ := by
    rw [slots_setRows_empty, List.map_cons, List.map_singleton, List.getElem?_cons_succ,
      List.getElem?_cons_zero, Slot.ofTyped, compile, treeOf, hspelled]
    rfl
  have hnone := fun row => (valueAt_eq_none_iff_not_compiled settings).1 table hreach row (.real 2) 3
  exact ⟨hreach, hnone, hvalue, (hnone 1).2 (.inr ⟨_, _, hrefused, rfl⟩), hcompile,
    (valueAt_eq_none_iff_not_compiled settings).2 typed [] _ _ hcompile [] _ _⟩

end Table

end ComplexSeries
