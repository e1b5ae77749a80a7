import ComplexSeries.Proofs.Eval.Compositional
import ComplexSeries.Proofs.Integral.Traced

/-! Computations that come to the same value again. A first run only appends to the memory. As long as
whatever it answered without storing would still be answered from the same integrals, a second run
finds everything else stored, however the memory has grown since. It stores nothing itself but
integrals that are stored in vain. -/
namespace ComplexSeries

open Integral
open Scalar (zero LawfulOrder)

variable {R : Type} [Scalar R]

namespace Integral

/-- Every stored integral has a width. -/
def Proper (memory : Memory R) : Prop := ∀ entry ∈ memory, (zero : R) < entry.width

/-- No request will ever be answered from these integrals. -/
def Inert (memory : Memory R) : Prop := ∀ entry ∈ memory, ∀ request, entry.fits request = false

theorem Proper.append {M K : Memory R} (hM : Proper M) (hK : Proper K) : Proper (M ++ K) :=
  List.forall_mem_append.2 ⟨hM, hK⟩

theorem Inert.append {J J' : Memory R} (hJ : Inert J) (hJ' : Inert J') : Inert (J ++ J') :=
  List.forall_mem_append.2 ⟨hJ, hJ'⟩

theorem inert_nil : Inert ([] : Memory R) := fun _ h => absurd h List.not_mem_nil

theorem closest?_append_inert {M J : Memory R} (hJ : Inert J) (request : Request R) :
    closest? (M ++ J) request = closest? M request :=
  closest?_append_of_not_fits fun entry h => hJ entry h request

end Integral

theorem Asked.holds_append_inert {M J : Memory R} (hJ : Inert J) (a : Asked R) :
    a.Holds (M ++ J) ↔ a.Holds M := by
  rw [Holds, Holds, closest?_append_inert hJ]

namespace Traced

variable {α β : Type} {n : Nat} {t : Traced R α} {M K : Memory R}

/-- From the memory `M` the computation appends `K`, integrals of fewer than `n` tokens. -/
structure Repeatable (n : Nat) (t : Traced R α) (M K : Memory R) : Prop where
  after_eq : (t M).after = M ++ K
  proper : Proper K
  short : ∀ entry ∈ K, entry.body.length < n
  again : ∀ later : Memory R, (∀ a ∈ (t M).asked, a.Holds (M ++ K ++ later)) →
    ∃ J, Inert J ∧ (t (M ++ K ++ later)).value = (t M).value ∧
      (t (M ++ K ++ later)).after = M ++ K ++ later ++ J

def Repeats (n : Nat) (t : Traced R α) : Prop :=
  ∀ M, Proper M → ∃ K, Repeatable n t M K

theorem Repeatable.mono {n' : Nat} (h : Repeatable n t M K) (hle : n ≤ n') :
    Repeatable n' t M K where
  after_eq := h.after_eq
  proper := h.proper
  short entry he := Nat.lt_of_lt_of_le (h.short entry he) hle
  again := h.again

theorem Repeats.mono {n' : Nat} (h : Repeats n t) (hle : n ≤ n') : Repeats n' t := by
  intro M hM
  obtain ⟨K, hK⟩ := h M hM
  exact ⟨K, hK.mono hle⟩

theorem repeats_pure (n : Nat) (a : α) : Repeats n (pure a : Traced R α) := by
  intro M _
  refine ⟨[], (List.append_nil M).symm, ?_, ?_, fun later _ => ⟨[], inert_nil, rfl, ?_⟩⟩
  · exact fun _ h => absurd h List.not_mem_nil
  · exact fun _ h => absurd h List.not_mem_nil
  · exact (List.append_nil _).symm

/-- The second part was run on what the first one left, and is run again on what the first one leaves
when it is run again: a memory that differs by integrals stored in vain. -/
theorem Repeats.bind {f : α → Traced R β} (ht : Repeats n t) (hf : ∀ a, Repeats n (f a)) :
    Repeats n (t >>= f) := by
  intro M hM
  obtain ⟨K, hK⟩ := ht M hM
  obtain ⟨L, hL⟩ := hf (t M).value (M ++ K) (hM.append hK.proper)
  have hrun : (t >>= f) M = ⟨(f (t M).value (M ++ K)).value,
      (t M).asked ++ (f (t M).value (M ++ K)).asked, (f (t M).value (M ++ K)).after⟩ := by
    rw [← hK.after_eq]
    rfl
  refine ⟨K ++ L, ?_, hK.proper.append hL.proper, List.forall_mem_append.2 ⟨hK.short, hL.short⟩, ?_⟩
  · rw [hrun, hL.after_eq, List.append_assoc]
  intro later hasked
  rw [hrun, List.forall_mem_append] at hasked
  obtain ⟨J, hJ, hvalue, hafter⟩ := hK.again (L ++ later) (by simpa using hasked.1)
  obtain ⟨J', hJ', hvalue', hafter'⟩ := hL.again (later ++ J) fun a ha => by
    rw [← List.append_assoc, a.holds_append_inert hJ]
    simpa using hasked.2 a ha
  have hmid : (t (M ++ (K ++ L) ++ later)).after = M ++ K ++ L ++ (later ++ J) := by
    simpa using hafter
  have hagain : (t (M ++ (K ++ L) ++ later)).value = (t M).value := by simpa using hvalue
  refine ⟨J ++ J', hJ.append hJ', ?_, ?_⟩
  · change (f (t (M ++ (K ++ L) ++ later)).value (t (M ++ (K ++ L) ++ later)).after).value = _
    rw [hmid, hagain, hrun]
    exact hvalue'
  · change (f (t (M ++ (K ++ L) ++ later)).value (t (M ++ (K ++ L) ++ later)).after).after = _
    rw [hmid, hagain, hafter']
    simp

theorem compositional_repeats (n : Nat) : Compositional fun α (t : Traced R α) => Repeats n t where
  pure a := repeats_pure n a
  bind ht hf := ht.bind hf

/-! ### Integrals -/

/-- The entry for a request, with the value that is found from a memory. -/
def own (settings : Settings R) (sample : R → Traced R (Complex R)) (request : Request R)
    (memory : Memory R) : Entry R :=
  ⟨request, ((plan settings memory request).value sample request memory).value⟩

section

variable {settings : Settings R} {sample : R → Traced R (Complex R)} {request : Request R}
  {memory : Memory R}

theorem ask_of_stores (h : (plan settings memory request).stores = true) :
    ask settings sample request memory =
      let found := (plan settings memory request).value sample request memory
      let entry := own settings sample request memory
      ⟨found.value, if entry.fits request then [] else found.asked, found.after ++ [entry]⟩ :=
  if_pos h

theorem ask_of_not_stores (h : (plan settings memory request).stores = false) :
    ask settings sample request memory =
      let found := (plan settings memory request).value sample request memory
      ⟨found.value, found.asked ++ (closest? memory request).toList.map (⟨request, ·⟩),
        found.after⟩ :=
  if_neg (by simp [h])

theorem ask_of_known {value : Complex R} (h : plan settings memory request = .known value) :
    ask settings sample request memory =
      ⟨value, (closest? memory request).toList.map (⟨request, ·⟩), memory⟩ := by
  rw [ask_of_not_stores (by rw [h]; rfl), h]
  rfl

/-- The same entry gives the same plan. -/
theorem repeatable_ask_of_not_stores (hstores : (plan settings M request).stores = false)
    (hK : Repeatable n ((plan settings M request).value sample request) M K) :
    Repeatable n (ask settings sample request) M K := by
  set found := (plan settings M request).value sample request M
  obtain ⟨E, hE⟩ := exists_closest?_of_not_stores hstores
  have hrun : ask settings sample request M =
      ⟨found.value, found.asked ++ [⟨request, E⟩], M ++ K⟩ := by
    rw [ask_of_not_stores hstores, hE]
    dsimp only
    rw [hK.after_eq]
    rfl
  refine ⟨by rw [hrun], hK.proper, hK.short, fun later hasked => ?_⟩
  rw [hrun, List.forall_mem_append] at hasked
  obtain ⟨J, hJ, hvalue, hafter⟩ := hK.again later hasked.1
  have hagain : closest? (M ++ K ++ later) request = some E := hasked.2 ⟨request, E⟩ (by simp)
  have hplan : plan settings (M ++ K ++ later) request = plan settings M request :=
    plan_congr (hagain.trans hE.symm)
  rw [ask_of_not_stores (by rw [hplan]; exact hstores), hplan, hrun]
  exact ⟨J, hJ, hvalue, hafter⟩

end

variable [LawfulOrder R] {settings : Settings R} {sample : R → Traced R (Complex R)}
  {request : Request R}

/-- What is appended if the answer is stored, and what is left to show then. -/
theorem repeatable_ask_of_stores (hordered : request.Ordered)
    (hstores : (plan settings M request).stores = true)
    (hK : Repeatable request.body.length ((plan settings M request).value sample request) M K)
    (again : ∀ later : Memory R,
      let memory := M ++ (K ++ [own settings sample request M]) ++ later
      (∀ a ∈ (ask settings sample request M).asked, a.Holds memory) →
      ∃ J, Inert J ∧
        (ask settings sample request memory).value = (own settings sample request M).value ∧
        (ask settings sample request memory).after = memory ++ J) :
    Repeatable (request.body.length + 1) (ask settings sample request) M
      (K ++ [own settings sample request M]) := by
  have hwidth : zero < (own settings sample request M).width := hordered.zero_lt_width
  have hrun : ask settings sample request M =
      let found := (plan settings M request).value sample request M
      let entry := own settings sample request M
      ⟨found.value, if entry.fits request then [] else found.asked, found.after ++ [entry]⟩ :=
    ask_of_stores hstores
  refine ⟨?_, hK.proper.append (by simpa [Proper] using hwidth), ?_, fun later hasked => ?_⟩
  · rw [hrun, ← List.append_assoc, ← hK.after_eq]
  · refine List.forall_mem_append.2 ⟨fun entry he => Nat.lt_succ_of_lt (hK.short entry he), ?_⟩
    simp [own]
  · rw [hrun]
    exact again later hasked

/-- What was stored while sampling has shorter bodies, so it does not fit. The entry that was stored
in the end is without distance, and none was before. -/
theorem closest?_append_stored (hordered : request.Ordered) (hM : Proper M)
    (hK : ∀ entry ∈ K, entry.body.length < request.body.length)
    (hstores : (plan settings M request).stores = true)
    {value : Complex R} (hfits : (⟨request, value⟩ : Entry R).fits request = true)
    (later : Memory R) :
    closest? (M ++ (K ++ [⟨request, value⟩]) ++ later) request = some ⟨request, value⟩ := by
  have hskip : closest? (M ++ K) request = closest? M request :=
    closest?_append_of_not_fits fun entry he => Entry.fits_of_length_ne (Nat.ne_of_lt (hK entry he))
  have hstored := closest?_append_own hM hordered hfits hstores
  rw [closest?_append_singleton hfits, ← hskip, ← closest?_append_singleton hfits,
    List.append_assoc] at hstored
  exact closest?_append_of_distance_eq hstored hordered.distance_eq later

/-- From then on the request is answered with the stored value. -/
theorem plan_append_stored (hordered : request.Ordered) (hM : Proper M)
    (hK : ∀ entry ∈ K, entry.body.length < request.body.length)
    (hstores : (plan settings M request).stores = true)
    {value : Complex R} (hfits : (⟨request, value⟩ : Entry R).fits request = true)
    (later : Memory R) (settings' : Settings R) :
    plan settings' (M ++ (K ++ [⟨request, value⟩]) ++ later) request = .known value := by
  refine plan_of_lt (closest?_append_stored hordered hM hK hstores hfits later) ?_
  rw [hordered.distance_eq]
  exact hordered.zero_lt_width

theorem repeatable_ask_of_fits (hordered : request.Ordered) (hM : Proper M)
    (hstores : (plan settings M request).stores = true)
    (hK : Repeatable request.body.length ((plan settings M request).value sample request) M K)
    (hfits : (own settings sample request M).fits request = true) :
    Repeatable (request.body.length + 1) (ask settings sample request) M
      (K ++ [own settings sample request M]) := by
  refine repeatable_ask_of_stores hordered hstores hK fun later _ => ⟨[], inert_nil, ?_⟩
  have hknown : plan settings (M ++ (K ++ [own settings sample request M]) ++ later) request =
      .known (own settings sample request M).value :=
    plan_append_stored hordered hM hK.short hstores hfits later settings
  rw [List.append_nil, ask_of_known hknown]
  exact ⟨rfl, rfl⟩

/-- Such an answer is found anew each time, and stored in vain each time. -/
theorem repeatable_ask_of_not_fits (hordered : request.Ordered)
    (hstores : (plan settings M request).stores = true)
    (hK : Repeatable request.body.length ((plan settings M request).value sample request) M K)
    (hfits : (own settings sample request M).fits request = false) :
    Repeatable (request.body.length + 1) (ask settings sample request) M
      (K ++ [own settings sample request M]) := by
  refine repeatable_ask_of_stores hordered hstores hK fun later hasked => ?_
  have hplan : plan settings (M ++ (K ++ [own settings sample request M]) ++ later) request =
      plan settings M request :=
    plan_congr ((closest?_eq_none_of_not_fits hfits _).trans
      (closest?_eq_none_of_not_fits hfits M).symm)
  have hinert : Inert [own settings sample request M] := by
    simpa [Inert] using Entry.fits_eq_false hfits
  have hnot : ¬(own settings sample request M).fits request = true := by simp [hfits]
  rw [ask_of_stores hstores] at hasked
  dsimp only at hasked
  rw [if_neg hnot] at hasked
  obtain ⟨J, hJ, hvalue, hafter⟩ := hK.again ([own settings sample request M] ++ later)
    (by simpa using hasked)
  have hmemory : M ++ (K ++ [own settings sample request M]) ++ later =
      M ++ K ++ ([own settings sample request M] ++ later) := by simp
  rw [← hmemory] at hvalue hafter
  have hsame : own settings sample request (M ++ (K ++ [own settings sample request M]) ++ later) =
      own settings sample request M := by
    rw [own, hplan, hvalue]
    rfl
  rw [ask_of_stores (by rw [hplan]; exact hstores), hplan, hsame]
  refine ⟨J ++ [own settings sample request M], hJ.append hinert, hvalue, ?_⟩
  dsimp only
  rw [hafter, List.append_assoc]

theorem repeats_ask (request : Request R) (hordered : request.Ordered)
    (h : ∀ t, Repeats request.body.length (sample t)) :
    Repeats (request.body.length + 1) (ask settings sample request) := by
  intro M hM
  have hR := compositional_repeats (R := R) request.body.length
  obtain ⟨K, hK⟩ := hR.planValue h request (plan settings M request) M hM
  cases hstores : (plan settings M request).stores with
  | false =>
    have hask := repeatable_ask_of_not_stores hstores hK
    exact ⟨K, hask.mono (Nat.le_succ _)⟩
  | true =>
    cases hfits : (own settings sample request M).fits request with
    | true => exact ⟨_, repeatable_ask_of_fits hordered hM hstores hK hfits⟩
    | false => exact ⟨_, repeatable_ask_of_not_fits hordered hstores hK hfits⟩

theorem repeats_integral {body : List (Token R)} (h : ∀ t, Repeats body.length (sample t))
    (index : Char) (bindings : List (Char × Complex R)) (lower upper : Complex R) :
    Repeats (body.length + 1)
      (integral settings sample lower upper (⟨body, index, bindings, ·, ·⟩)) := by
  have hR := compositional_repeats (R := R) (body.length + 1)
  exact hR.directed (fun a b hab => repeats_ask ⟨body, index, bindings, a, b⟩ hab.ordered h) lower upper

end Traced

end ComplexSeries
