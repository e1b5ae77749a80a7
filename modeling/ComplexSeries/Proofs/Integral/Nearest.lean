import Mathlib.Data.List.Induction
import ComplexSeries.Integral.Memory
import ComplexSeries.Proofs.Scalar.Laws

/-! Which stored integral a request is answered from. Only integrals of the same function are
considered, and functions are compared by value: what holds a missing value does not even fit itself,
so it is stored in vain. An integral that has been stored for a request is nearest to it from then on,
unless one was as near before. -/
namespace ComplexSeries

open Scalar (zero LawfulOrder)

/-! ### Equality by value -/

/-- Whatever equals something equals itself. -/
class QuasiReflBEq (α : Type) [BEq α] : Prop where
  beq_self_of_beq {a b : α} : (a == b) = true → (a == a) = true ∧ (b == b) = true

namespace QuasiReflBEq

variable {α β : Type} [BEq α] [BEq β]

instance [ReflBEq α] : QuasiReflBEq α := ⟨fun _ => ⟨BEq.rfl, BEq.rfl⟩⟩

instance [QuasiReflBEq α] [QuasiReflBEq β] : QuasiReflBEq (α × β) where
  beq_self_of_beq {p q} h := by
    obtain ⟨hfst, hsnd⟩ := Bool.and_eq_true_iff.1 h
    have hfst := beq_self_of_beq hfst
    have hsnd := beq_self_of_beq hsnd
    exact ⟨Bool.and_eq_true_iff.2 ⟨hfst.1, hsnd.1⟩, Bool.and_eq_true_iff.2 ⟨hfst.2, hsnd.2⟩⟩

instance [QuasiReflBEq α] : QuasiReflBEq (List α) where
  beq_self_of_beq {as bs} h := by
    induction as generalizing bs with
    | nil =>
      cases bs with
      | nil => exact ⟨h, h⟩
      | cons b bs => cases h
    | cons a as ih =>
      cases bs with
      | nil => cases h
      | cons b bs =>
        simp only [List.cons_beq_cons, Bool.and_eq_true] at h ⊢
        have hhead := beq_self_of_beq h.1
        have htail := ih h.2
        exact ⟨⟨hhead.1, htail.1⟩, hhead.2, htail.2⟩

end QuasiReflBEq

open QuasiReflBEq (beq_self_of_beq)

theorem length_eq_of_beq {α : Type} [BEq α] {as bs : List α} (h : (as == bs) = true) :
    as.length = bs.length := by
  induction as generalizing bs with
  | nil =>
    cases bs with
    | nil => rfl
    | cons b bs => cases h
  | cons a as ih =>
    cases bs with
    | nil => cases h
    | cons b bs =>
      rw [List.cons_beq_cons, Bool.and_eq_true] at h
      rw [List.length_cons, List.length_cons, ih h.2]

/-- Members of equal lists are equal in pairs. -/
theorem exists_beq_of_mem {α : Type} [BEq α] {as bs : List α} (h : (as == bs) = true) {b : α}
    (hb : b ∈ bs) : ∃ a ∈ as, (a == b) = true := by
  induction as generalizing bs with
  | nil =>
    cases bs with
    | nil => cases hb
    | cons _ _ => cases h
  | cons a as ih =>
    cases bs with
    | nil => cases h
    | cons d bs =>
      rw [List.cons_beq_cons, Bool.and_eq_true] at h
      rcases List.mem_cons.1 hb with rfl | hb
      · exact ⟨a, List.mem_cons_self, h.1⟩
      · obtain ⟨c, hc, hcb⟩ := ih h.2 hb
        exact ⟨c, List.mem_cons_of_mem a hc, hcb⟩

variable {R : Type} [Scalar R]

instance [LawfulOrder R] : QuasiReflBEq (Complex R) where
  beq_self_of_beq {z w} h := by
    obtain ⟨hre, him⟩ := Bool.and_eq_true_iff.1 h
    have hre := LawfulOrder.beq_self_of_beq hre
    have him := LawfulOrder.beq_self_of_beq him
    exact ⟨Bool.and_eq_true_iff.2 ⟨hre.1, him.1⟩, Bool.and_eq_true_iff.2 ⟨hre.2, him.2⟩⟩

instance [LawfulOrder R] : QuasiReflBEq (Token R) where
  beq_self_of_beq {s t} h := by
    change Token.same s t = true at h
    change Token.same s s = true ∧ Token.same t t = true
    cases s <;> cases t <;> first | exact Bool.noConfusion h | exact beq_self_of_beq h

namespace Integral

variable {settings : Settings R} {M K : Memory R} {request : Request R} {entry E : Entry R}

/-! ### Entries that fit -/

theorem Entry.fits_iff : entry.fits request = true ↔
    (entry.index == request.index) = true ∧ (entry.bindings == request.bindings) = true ∧
      (entry.body == request.body) = true := by
  rw [Entry.fits, Bool.and_eq_true, Bool.and_eq_true, and_assoc]

theorem Entry.fits_of_length_ne (h : entry.body.length ≠ request.body.length) :
    entry.fits request = false :=
  Bool.eq_false_iff.2 fun hfits => h (length_eq_of_beq (fits_iff.1 hfits).2.2)

section

variable [LawfulOrder R]

/-- Once an entry fits a request, an entry for that request does. -/
theorem Entry.fits_own_of_fits (h : entry.fits request = true) (value : Complex R) :
    (⟨request, value⟩ : Entry R).fits request = true := by
  obtain ⟨hindex, hbindings, hbody⟩ := fits_iff.1 h
  exact fits_iff.2 ⟨BEq.rfl, (beq_self_of_beq hbindings).2, (beq_self_of_beq hbody).2⟩

/-- An entry that does not fit its own request fits none. -/
theorem Entry.fits_eq_false (h : entry.fits entry.toRequest = false) (request : Request R) :
    entry.fits request = false := by
  rw [Bool.eq_false_iff] at h ⊢
  intro hfits
  obtain ⟨hindex, hbindings, hbody⟩ := fits_iff.1 hfits
  exact h (fits_iff.2 ⟨BEq.rfl, (beq_self_of_beq hbindings).1, (beq_self_of_beq hbody).1⟩)

end

/-! ### The nearest entry -/

theorem closest?_append_of_not_fits (h : ∀ entry ∈ K, entry.fits request = false) :
    closest? (M ++ K) request = closest? M request := by
  have hnil : K.filter (·.fits request) = [] :=
    List.filter_eq_nil_iff.2 fun entry hentry => by simp [h entry hentry]
  rw [closest?, List.filter_append, hnil, List.append_nil]
  rfl

theorem closest?_append_singleton (h : entry.fits request = true) :
    closest? (M ++ [entry]) request = closer request (closest? M request) entry := by
  have hfilter : [entry].filter (·.fits request) = [entry] := by simp [h]
  rw [closest?, List.filter_append, hfilter, List.foldl_append]
  rfl

theorem closer_cases (best : Option (Entry R)) (entry : Entry R) :
    closer request best entry = some entry ∨ closer request best entry = best := by
  cases best with
  | none => exact .inl rfl
  | some E =>
    by_cases h : Scalar.nearer (entry.distance request) (E.distance request) = true
    · exact .inl (if_pos h)
    · exact .inr (if_neg h)

theorem closest?_eq_some (h : closest? M request = some E) : E ∈ M ∧ E.fits request = true := by
  induction M using List.reverseRecOn with
  | nil => cases h
  | append_singleton M entry ih =>
    by_cases hfits : entry.fits request = true
    · rw [closest?_append_singleton hfits] at h
      rcases closer_cases (closest? M request) entry with hc | hc
      · obtain rfl : entry = E := Option.some.inj (hc.symm.trans h)
        exact ⟨by simp, hfits⟩
      · obtain ⟨hmem, hE⟩ := ih (hc.symm.trans h)
        exact ⟨List.mem_append_left _ hmem, hE⟩
    · rw [closest?_append_of_not_fits (by simpa using hfits)] at h
      obtain ⟨hmem, hE⟩ := ih h
      exact ⟨List.mem_append_left _ hmem, hE⟩

/-- Nothing is nearer than an entry without distance. -/
theorem closest?_append_of_distance_eq [LawfulOrder R] (hclosest : closest? M request = some entry)
    (hzero : entry.distance request = zero) (later : Memory R) :
    closest? (M ++ later) request = some entry := by
  induction later using List.reverseRecOn with
  | nil => rwa [List.append_nil]
  | append_singleton later E ih =>
    rw [← List.append_assoc]
    by_cases hfits : E.fits request = true
    · have hnearer : Scalar.nearer (E.distance request) (entry.distance request) = false := by
        have hlt : ¬E.distance request < zero := LawfulOrder.add_abs_not_lt_zero _ _
        rw [hzero, Scalar.nearer, LawfulOrder.isMissing_zero]
        simp [hlt]
      rw [closest?_append_singleton hfits, ih, closer, hnearer]
      rfl
    · rw [closest?_append_of_not_fits (by simpa using hfits), ih]

theorem closest?_eq_none_of_not_fits [LawfulOrder R] {value : Complex R}
    (h : (⟨request, value⟩ : Entry R).fits request = false) (memory : Memory R) :
    closest? memory request = none := by
  cases hc : closest? memory request with
  | none => rfl
  | some E =>
    have hfits := Entry.fits_own_of_fits (closest?_eq_some hc).2 value
    rw [h] at hfits
    cases hfits

/-! ### Plans -/

namespace Plan

/-- Whether the answer will be stored. -/
def stores : Plan R → Bool
  | .cold _ => true
  | .known _ => false
  | .extend _ _ _ store => store

/-- The value from the memory that the answer starts from. -/
def base? : Plan R → Option (Complex R)
  | .cold _ => none
  | .known value | .extend value _ _ _ => some value

end Plan

theorem plan_congr {M' : Memory R} (h : closest? M' request = closest? M request) :
    plan settings M' request = plan settings M request := by
  rw [plan, plan, h]

theorem base?_plan (settings : Settings R) (M : Memory R) (request : Request R) :
    (plan settings M request).base? = (closest? M request).map (·.value) := by
  rw [plan]
  cases closest? M request with
  | none => rfl
  | some entry =>
    dsimp only
    split <;> rfl

/-- What answers a request without being stored was taken from an entry. -/
theorem exists_closest?_of_not_stores (h : (plan settings M request).stores = false) :
    ∃ E, closest? M request = some E := by
  cases hc : closest? M request with
  | none =>
    rw [plan, hc] at h
    cases h
  | some E => exact ⟨E, rfl⟩

theorem stores_of_closest? (hc : closest? M request = some E)
    (h : (plan settings M request).stores = true) : E.width < E.distance request := by
  rw [plan, hc] at h
  dsimp only at h
  split at h
  · cases h
  · exact of_decide_eq_true h

theorem plan_of_lt (hc : closest? M request = some E) (h : E.distance request < E.width) :
    plan settings M request = .known E.value := by
  rw [plan, hc]
  exact if_pos h

/-! ### The entry that was stored for a request -/

/-- Finite bounds, the lower one first. -/
structure Request.Ordered (request : Request R) : Prop where
  lower_finite : Scalar.isFinite request.lower = true
  upper_finite : Scalar.isFinite request.upper = true
  lower_lt_upper : request.lower < request.upper

section

variable [LawfulOrder R] {value : Complex R}

theorem Request.Ordered.distance_eq (h : request.Ordered) :
    (⟨request, value⟩ : Entry R).distance request = zero :=
  LawfulOrder.abs_sub_self h.lower_finite h.upper_finite

theorem Request.Ordered.zero_lt_width (h : request.Ordered) :
    zero < (⟨request, value⟩ : Entry R).width :=
  LawfulOrder.zero_lt_sub h.lower_finite h.upper_finite h.lower_lt_upper

/-- An answer is stored only where the stored intervals are farther away than they are wide. -/
theorem closest?_append_own (hM : ∀ entry ∈ M, zero < entry.width)
    (hordered : request.Ordered) (hfits : (⟨request, value⟩ : Entry R).fits request = true)
    (hstores : (plan settings M request).stores = true) :
    closest? (M ++ [⟨request, value⟩]) request = some ⟨request, value⟩ := by
  rw [closest?_append_singleton hfits]
  cases hc : closest? M request with
  | none => rfl
  | some E =>
    have hwidth : zero < E.width := hM E (closest?_eq_some hc).1
    have hpos : zero < E.distance request :=
      LawfulOrder.zero_lt_of_lt hwidth (stores_of_closest? hc hstores)
    have hnearer : Scalar.nearer (zero : R) (E.distance request) = true := by
      simp [Scalar.nearer, hpos]
    rw [closer, hordered.distance_eq, if_pos hnearer]

end

end Integral

end ComplexSeries
