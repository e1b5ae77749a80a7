import ComplexSeries.Proofs.Double.Laws
import ComplexSeries.Proofs.Expr.Learnt
import ComplexSeries.Proofs.Expr.Reader
import ComplexSeries.Proofs.Expr.Traced
import ComplexSeries.Proofs.Table

/-! Asking a table twice for the same value. Nothing but integrals with a width ever comes into the
memory of a slot, so the value of a row repeats if whatever was answered without being stored would be
answered from the same integrals afterwards. It does not repeat in general: an integral that is stored
later in the same call may be nearer to a request than the one that the request was answered from. -/
namespace ComplexSeries

open Eval (Env startEnv)
open Integral (Memory Request Entry Proper)
open Lexeme
open Scalar (LawfulOrder)

variable {R : Type} [Scalar R] {settings : Settings R}

/-- What the tree answered without storing it would still be answered from the same integrals. -/
def Expr.Steady (settings : Settings R) (e : Expr R) (memory : Memory R) (x n : Complex R) : Prop :=
  let trace := e.traced .standard settings (startEnv x n) memory
  ∀ a ∈ trace.asked, a.Holds trace.after

instance [DecidableEq R] (e : Expr R) (memory : Memory R) (x n : Complex R) :
    Decidable (e.Steady settings memory x n) :=
  inferInstanceAs (Decidable (∀ a ∈ (e.traced .standard settings (startEnv x n) memory).asked, _))

theorem Expr.Steady.value_again [LawfulOrder R] {e : Expr R} {memory : Memory R} {x n : Complex R}
    (h : e.Steady settings memory x n) (hmemory : Proper memory) :
    let trace := e.traced .standard settings (startEnv x n) memory
    (e.traced .standard settings (startEnv x n) trace.after).value = trace.value := by
  intro trace
  have hrepeats : Traced.Repeats e.tokens.length (e.traced .standard settings (startEnv x n)) :=
    e.repeats_traced (startEnv x n)
  obtain ⟨K, hK⟩ := hrepeats memory hmemory
  have hafter : trace.after = memory ++ K ++ [] := by rw [List.append_nil]; exact hK.after_eq
  obtain ⟨J, -, hvalue, -⟩ := hK.again [] (by rw [← hafter]; exact h)
  rw [hafter]
  exact hvalue

/-- A slot as it arises in a table. -/
structure Slot.Sound (settings : Settings R) (slot : Slot R) : Prop where
  proper : Proper slot.memory
  compilable : ∀ ts, slot.compiled = .ok ts → ∃ e : Expr R, e.Compilable settings ∧ e.tokens = ts

theorem Integral.Learns.proper [LawfulOrder R] {α : Type} {t : StateM (Memory R) α}
    (h : Learns Entry.WellFormed t) {memory : Memory R} (hmemory : Proper memory) :
    Proper (t.run memory).2 := by
  obtain ⟨learnt, hlearnt, hgood⟩ := h memory
  rw [hlearnt]
  exact hmemory.append fun entry hentry => (hgood entry hentry).zero_lt_width

theorem Slot.ofTyped_of_treeOf {typed : String} {e : Expr R}
    (h : treeOf settings.maxDepth typed = .ok e) (hfold : settings.foldConstants = false) :
    Slot.ofTyped settings typed = ⟨typed, .ok e.tokens, []⟩ := by
  rw [ofTyped, compile, h]
  dsimp only
  rw [hfold]
  rfl

namespace Table

variable {table : Table R} {row : Nat} {slot : Slot R} {ts : List (Token R)}

theorem Reachable.slot_sound [LawfulOrder R] (h : Reachable settings table) :
    ∀ slot ∈ table.slots, slot.Sound settings := by
  refine h.forall_slots (fun typed => ⟨?_, fun ts hts => ?_⟩) fun slot hslot ts hts x n => ?_
  · exact (learns_compile settings typed).proper fun _ h => absurd h List.not_mem_nil
  · obtain ⟨e, he, e', hfolded, htokens⟩ := exists_tree_of_compile (Prod.ext hts rfl)
    exact ⟨e', hfolded.compilable (compilable_of_treeOf he), htokens⟩
  · exact ⟨(learns_evaluate settings ts x n).proper hslot.proper, hslot.compilable⟩

/-! ### Asking twice -/

omit [Scalar R] in
theorem getElem?_withMemory (hslot : table.slots[row]? = some slot) (memory : Memory R) :
    (table.withMemory row memory).slots[row]? = some { slot with memory } := by
  rw [withMemory, List.getElem?_modify, hslot]
  simp

theorem valueAt_tokens (hsettings : table.settings = settings) {e : Expr R}
    (he : e.Compilable settings) (hslot : table.slots[row]? = some slot)
    (hcompiled : slot.compiled = .ok e.tokens) (x : Abscissa R) (n : Int) :
    table.valueAt row x n =
      let trace := e.traced .standard settings (startEnv x.value (Complex.ofInt n)) slot.memory
      (some (x.answer settings.realTolerance trace.value), table.withMemory row trace.after) := by
  have hrun := he.run_evaluate slot.memory x.value (Complex.ofInt n)
  subst hsettings
  simp only [valueAt, hslot, hcompiled]
  change (evaluate table.settings e.tokens x.value (Complex.ofInt n)).run slot.memory = _ at hrun
  rw [hrun]

/-- A row is compiled to the tokens of a tree, and its value at a point is the same the second time if
the tree is steady there. -/
theorem valueAt_twice [LawfulOrder R] (h : Reachable settings table)
    (hslot : table.slots[row]? = some slot) (hcompiled : slot.compiled = .ok ts) :
    (∃ e : Expr R, e.Compilable settings ∧ e.tokens = ts) ∧
      ∀ e : Expr R, e.Compilable settings → e.tokens = ts → ∀ (x : Abscissa R) (n : Int),
        e.Steady settings slot.memory x.value (Complex.ofInt n) →
          ((table.valueAt row x n).2.valueAt row x n).1 = (table.valueAt row x n).1 := by
  have hsound := h.slot_sound slot (List.mem_of_getElem? hslot)
  refine ⟨hsound.compilable ts hcompiled, ?_⟩
  rintro e he rfl x n hsteady
  have hfirst := valueAt_tokens h.settings_eq he hslot hcompiled x n
  set trace := e.traced .standard settings (startEnv x.value (Complex.ofInt n)) slot.memory
  have hsettings : (table.withMemory row trace.after).settings = settings := h.settings_eq
  rw [hfirst, valueAt_tokens hsettings he (getElem?_withMemory hslot trace.after) hcompiled x n]
  dsimp only
  rw [hsteady.value_again hsound.proper]

/-- The second integral is answered from the first one, which is less than its width away. -/
theorem valueAt_twice_near :
    let settings : Settings Float := ⟨1, 1, 1, 4, false, none⟩
    let table := (Table.empty settings).setRows ["int(0;x;1;t)+int(0;x+9;1;t)"]
    let upTo (upper : Expr Float) : Expr Float :=
      .aggregate .integral (.const (.ofReal 0)) upper (.const (.ofReal 1)) 't'
    let e : Expr Float :=
      .binary .add (upTo (.var 'x')) (upTo (.binary .add (.var 'x') (.const (.ofReal 9))))
    let slot : Slot Float := ⟨"int(0;x;1;t)+int(0;x+9;1;t)", .ok e.tokens, []⟩
    Reachable settings table ∧ table.slots[0]? = some slot ∧ slot.compiled = .ok e.tokens ∧
      e.Compilable settings ∧ e.Steady settings slot.memory (.ofReal 10) (Complex.ofInt 0) ∧
      ((table.valueAt 0 (.real 10) 0).2.valueAt 0 (.real 10) 0).1 =
        (table.valueAt 0 (.real 10) 0).1 := by
  intro settings table upTo e slot
  have hreach : Reachable settings table := .setRows _ .empty
  have hscan : scan "int(0;x;1;t)+int(0;x+9;1;t)".toList = .ok [keyword (.aggregate .integral), lparen,
      number ['0'], separator, letter 'x', separator, number ['1'], separator, letter 't', rparen,
      operator .add, keyword (.aggregate .integral), lparen, number ['0'], separator, letter 'x',
      operator .add, number ['9'], separator, number ['1'], separator, letter 't', rparen] := by rfl
  have hread : Expr.read settings.maxDepth "int(0;x;1;t)+int(0;x+9;1;t)" = .ok e :=
    Expr.read_of_scan hscan (Expr.ofLexemes_of_sum (List.cons_ne_nil _ _) rfl (by decide))
  have htree : treeOf settings.maxDepth "int(0;x;1;t)+int(0;x+9;1;t)" = .ok e :=
    treeOf_of_read (by decide +kernel) hread rfl
  have he : e.Compilable settings := compilable_of_treeOf htree
  have hslot : table.slots[0]? = some slot := by
    rw [slots_setRows_empty, List.map_singleton, Slot.ofTyped_of_treeOf htree rfl]
    rfl
  have hsteady : e.Steady settings slot.memory (.ofReal 10) (Complex.ofInt 0) := by decide +kernel
  exact ⟨hreach, hslot, rfl, he, hsteady,
    (valueAt_twice hreach hslot rfl).2 e he rfl (.real 10) 0 hsteady⟩

/-- The second integral is answered from the first one, and the third one is stored. It is nearer to
the second one, so that is answered from it the second time. -/
theorem valueAt_twice_ne :
    let settings : Settings Float := ⟨1, 1, 1, 5, false, none⟩
    let table := (Table.empty settings).setRows ["int(0;x;1;t)+int(0;x+9;1;t)+int(0;x+11;1;t)"]
    Reachable settings table ∧
      (∃ slot ts, table.slots[0]? = some slot ∧ slot.compiled = .ok ts) ∧
      (table.valueAt 0 (.real 10) 0).1 = some (.real 41) ∧
      ((table.valueAt 0 (.real 10) 0).2.valueAt 0 (.real 10) 0).1 = some (.real 52) ∧
      ((table.valueAt 0 (.real 10) 0).2.valueAt 0 (.real 10) 0).1 ≠
        (table.valueAt 0 (.real 10) 0).1 := by
  intro settings table
  let upTo (upper : Expr Float) : Expr Float :=
    .aggregate .integral (.const (.ofReal 0)) upper (.const (.ofReal 1)) 't'
  let e : Expr Float := .binary .add
    (.binary .add (upTo (.var 'x')) (upTo (.binary .add (.var 'x') (.const (.ofReal 9)))))
    (upTo (.binary .add (.var 'x') (.const (.ofReal 11))))
  have hreach : Reachable settings table := .setRows _ .empty
  have hscan : scan "int(0;x;1;t)+int(0;x+9;1;t)+int(0;x+11;1;t)".toList =
      .ok [keyword (.aggregate .integral), lparen, number ['0'], separator, letter 'x', separator,
        number ['1'], separator, letter 't', rparen, operator .add, keyword (.aggregate .integral),
        lparen, number ['0'], separator, letter 'x', operator .add, number ['9'], separator,
        number ['1'], separator, letter 't', rparen, operator .add, keyword (.aggregate .integral),
        lparen, number ['0'], separator, letter 'x', operator .add, number ['1', '1'], separator,
        number ['1'], separator, letter 't', rparen] := by rfl
  have hread : Expr.read settings.maxDepth "int(0;x;1;t)+int(0;x+9;1;t)+int(0;x+11;1;t)" = .ok e :=
    Expr.read_of_scan hscan (Expr.ofLexemes_of_sum (List.cons_ne_nil _ _) rfl (by decide))
  have htree : treeOf settings.maxDepth "int(0;x;1;t)+int(0;x+9;1;t)+int(0;x+11;1;t)" = .ok e :=
    treeOf_of_read (by decide +kernel) hread rfl
  have he : e.Compilable settings := compilable_of_treeOf htree
  let slot : Slot Float := ⟨"int(0;x;1;t)+int(0;x+9;1;t)+int(0;x+11;1;t)", .ok e.tokens, []⟩
  have hslot : table.slots[0]? = some slot := by
    rw [slots_setRows_empty, List.map_singleton, Slot.ofTyped_of_treeOf htree rfl]
    rfl
  let env : Env Float := startEnv (.ofReal 10) (Complex.ofInt 0)
  let E (upper : Float) : Entry Float := ⟨⟨[.literal (.ofReal 1)], 't', [], 0, upper⟩, .ofReal upper⟩
  have hvalue : (e.traced .standard settings env []).value = .ofReal 41 := by decide +kernel
  have hafter : (e.traced .standard settings env []).after = [E 10, E 21] := by decide +kernel
  have hvalue' : (e.traced .standard settings env [E 10, E 21]).value = .ofReal 52 := by
    decide +kernel
  have hsmall : Scalar.abs (Scalar.zero : Float) < settings.realTolerance := by decide +kernel
  have hanswer (y : Float) : Abscissa.answer settings.realTolerance (.ofReal y) (.real 10) = .real y :=
    Abscissa.answer_ofReal hsmall 10 y
  have hfirst : table.valueAt 0 (.real 10) 0 =
      (some (.real 41), table.withMemory 0 [E 10, E 21]) := by
    rw [valueAt_tokens hreach.settings_eq he hslot rfl (.real 10) 0]
    change (some (Abscissa.answer _ (e.traced .standard settings env []).value _),
      table.withMemory 0 (e.traced .standard settings env []).after) = _
    rw [hvalue, hafter, hanswer]
  have hsecond : ((table.withMemory 0 [E 10, E 21]).valueAt 0 (.real 10) 0).1 = some (.real 52) := by
    have hsettings : (table.withMemory 0 [E 10, E 21]).settings = settings := hreach.settings_eq
    rw [valueAt_tokens hsettings he (getElem?_withMemory hslot [E 10, E 21]) rfl (.real 10) 0]
    change some (Abscissa.answer _ (e.traced .standard settings env [E 10, E 21]).value _) = _
    rw [hvalue', hanswer]
  rw [hfirst]
  refine ⟨hreach, ⟨slot, e.tokens, hslot, rfl⟩, rfl, hsecond, ?_⟩
  rw [hsecond]
  intro h
  exact absurd (Ordinate.real.inj (Option.some.inj h)) (by decide +kernel)

end Table

end ComplexSeries
