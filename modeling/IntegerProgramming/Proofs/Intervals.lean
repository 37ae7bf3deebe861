import Mathlib
import IntegerProgramming.Subproblem
import IntegerProgramming.Proofs.Lawful

/-!
# Intervals — what the folded bounds say

A box encloses a point when each coordinate lies in its interval (`Box.Encloses`).  Folding a list
of changes into a box, in whatever order and however often they repeat, leaves just the points that
every change admits.  Only the laws of comparison are used, so nothing is lost to rounding.

* `Box.Ends.foldlM_tighten?`: what the ends of a box keep from change to change.
* `Box.meets_tighten?_iff`: one change cuts off the points it does not admit, and no others, and it
  leaves the ends of the other side alone.
* `Box.not_encloses_of_isEmpty`: an empty box encloses nothing.
* `Box.narrows_of_subset`: more changes narrow a box; for its ends are themselves what the fewer
  changes admit.
* `Program.exists_box?_encloses_iff`: **the box of a subproblem encloses the points `x ≥ 0` that
  every change admits**, whatever the order and the repetition of the changes.
-/

namespace IntegerProgramming

/-! ### Lists with one entry changed -/

section Lists

variable {γ δ : Type}

theorem forall_mem_modify {P : γ → Prop} {f : γ → γ} (keeps : ∀ a, P a → P (f a)) {xs : List γ}
    (h : ∀ a ∈ xs, P a) (i : ℕ) : ∀ a ∈ xs.modify i f, P a := by
  induction xs generalizing i with
  | nil => simp
  | cons a xs ih =>
      obtain ⟨ha, hxs⟩ := List.forall_mem_cons.mp h
      cases i with
      | zero => exact List.forall_mem_cons.mpr ⟨keeps a ha, hxs⟩
      | succ i => exact List.forall_mem_cons.mpr ⟨ha, ih hxs i⟩

/-- If changing an entry makes it ask for one thing more, the lists are related just when they were
and the entry opposite has what it asks for. -/
theorem forall₂_modify_iff {R : γ → δ → Prop} {Q : γ → Prop} {f : δ → δ} {xs : List γ}
    {ys : List δ} (asks : ∀ b ∈ ys, ∀ a, R a (f b) ↔ R a b ∧ Q a) {i : ℕ} (hi : i < ys.length) :
    List.Forall₂ R xs (ys.modify i f) ↔ List.Forall₂ R xs ys ∧ ∃ a, xs[i]? = some a ∧ Q a := by
  induction ys generalizing xs i with
  | nil => exact absurd hi (Nat.not_lt_zero i)
  | cons b ys ih =>
      obtain ⟨hb, hys⟩ := List.forall_mem_cons.mp asks
      cases xs with
      | nil => cases i <;> simp
      | cons a xs =>
          cases i with
          | zero =>
              rw [List.modify_zero_cons, List.forall₂_cons, List.forall₂_cons, hb a]
              simp only [List.getElem?_cons_zero, Option.some.injEq, exists_eq_left']
              exact and_right_comm
          | succ i =>
              rw [List.modify_succ_cons, List.forall₂_cons, List.forall₂_cons,
                ih hys (Nat.lt_of_succ_lt_succ hi), List.getElem?_cons_succ, and_assoc]

theorem forall₂_replicate_iff {R : γ → δ → Prop} {xs : List γ} {n : ℕ} {b : δ} :
    List.Forall₂ R xs (List.replicate n b) ↔ xs.length = n ∧ ∀ a ∈ xs, R a b := by
  induction xs generalizing n with
  | nil => cases n <;> simp [List.replicate_succ]
  | cons a xs ih =>
      cases n with
      | zero => simp
      | succ n =>
          rw [List.replicate_succ, List.forall₂_cons, ih, List.length_cons, List.forall_mem_cons,
            Nat.add_right_cancel_iff]
          exact and_left_comm

end Lists

variable {α : Type} [Scalar α]

/-! ### Ends -/

namespace Box

/-- What each lower end of a box is, and what each upper end. -/
structure Ends (P Q : α → Prop) (box : Box α) : Prop where
  lower : ∀ l ∈ box.lower, P l
  upper : ∀ u ∈ box.upper, Q u

variable {P Q : α → Prop} {box box' : Box α} {change : BoundChange α}

/-- What a change does to a box. -/
theorem tighten?_eq_some_iff : box.tighten? change = some box' ↔
    (change.side = .upper ∧ change.var < box.upper.length
      ∧ { box with upper := box.upper.modify change.var (lesser · change.value) } = box')
    ∨ (change.side = .lower ∧ change.var < box.lower.length
      ∧ { box with lower := box.lower.modify change.var (greater · change.value) } = box') := by
  obtain ⟨var, side, value⟩ := change
  cases side <;> simp [tighten?]

theorem Ends.tighten? (ends : box.Ends P Q) (lower : ∀ l, P l → P (greater l change.value))
    (upper : ∀ u, Q u → Q (lesser u change.value)) (h : box.tighten? change = some box') :
    box'.Ends P Q := by
  rcases tighten?_eq_some_iff.mp h with ⟨-, -, rfl⟩ | ⟨-, -, rfl⟩
  · exact ⟨ends.lower, forall_mem_modify upper ends.upper change.var⟩
  · exact ⟨forall_mem_modify lower ends.lower change.var, ends.upper⟩

/-- The first change is folded in first. -/
theorem foldlM_tighten?_cons {rest : List (BoundChange α)} :
    (change :: rest).foldlM Box.tighten? box = some box'
      ↔ ∃ mid, box.tighten? change = some mid ∧ rest.foldlM Box.tighten? mid = some box' := by
  rw [List.foldlM_cons, Option.bind_eq_bind, Option.bind_eq_some_iff]

/-- **Folding keeps what each change keeps.** -/
theorem Ends.foldlM_tighten? {changes : List (BoundChange α)} (ends : box.Ends P Q)
    (lower : ∀ change ∈ changes, ∀ l, P l → P (greater l change.value))
    (upper : ∀ change ∈ changes, ∀ u, Q u → Q (lesser u change.value))
    (h : changes.foldlM Box.tighten? box = some box') : box'.Ends P Q := by
  induction changes generalizing box with
  | nil => exact Option.some.inj h ▸ ends
  | cons change rest ih =>
      obtain ⟨mid, hmid, hrest⟩ := foldlM_tighten?_cons.mp h
      obtain ⟨hl, lower⟩ := List.forall_mem_cons.mp lower
      obtain ⟨hu, upper⟩ := List.forall_mem_cons.mp upper
      exact ih (ends.tighten? hl hu hmid) lower upper hrest

theorem ends_nonnegative (zero : P 0) (infinite : Q infinity) (n : ℕ) :
    (nonnegative n).Ends P Q where
  lower _ hl := List.eq_of_mem_replicate hl ▸ zero
  upper _ hu := List.eq_of_mem_replicate hu ▸ infinite

end Box

/-- There is a box after changes that are about its variables. -/
theorem Box.exists_foldlM_tighten? {n : ℕ} {changes : List (BoundChange α)} {box : Box α}
    (inRange : ∀ change ∈ changes, change.var < n) (lower : box.lower.length = n)
    (upper : box.upper.length = n) : ∃ box', changes.foldlM Box.tighten? box = some box' := by
  induction changes generalizing box with
  | nil => exact ⟨box, rfl⟩
  | cons change rest ih =>
      obtain ⟨hvar, inRange⟩ := List.forall_mem_cons.mp inRange
      obtain ⟨mid, hmid⟩ : ∃ mid, box.tighten? change = some mid := by
        simp only [tighten?_eq_some_iff, lower, upper, hvar, true_and]
        cases change.side with
        | upper => exact ⟨_, .inl ⟨rfl, rfl⟩⟩
        | lower => exact ⟨_, .inr ⟨rfl, rfl⟩⟩
      obtain ⟨hlower, hupper⟩ := length_of_tighten? hmid
      obtain ⟨box', hrest⟩ := ih inRange (hlower.trans lower) (hupper.trans upper)
      exact ⟨box', foldlM_tighten?_cons.mpr ⟨mid, hmid, hrest⟩⟩

/-- A subproblem has a box if its changes are about variables of its program. -/
theorem Subproblem.exists_box? {sub : Subproblem α}
    (inRange : ∀ change ∈ sub.changes, change.var < sub.program.numVars) :
    ∃ box, sub.box? = some box :=
  Box.exists_foldlM_tighten? inRange (Box.length_lower_nonnegative _)
    (Box.length_upper_nonnegative _)

/-! ### Points -/

namespace Box

variable {box box' : Box α} {change : BoundChange α} {x : List α} {side : Side}

/-- Each coordinate of the point is on the right side of its end, on one side of the box. -/
def Meets (box : Box α) : Side → List α → Prop
  | .upper, x => List.Forall₂ (· ≤ ·) x box.upper
  | .lower, x => List.Forall₂ (· ≥ ·) x box.lower

/-- Each coordinate of the point lies in its interval. -/
structure Encloses (box : Box α) (x : List α) : Prop where
  lower : box.Meets .lower x
  upper : box.Meets .upper x

variable [LawfulScalar α]

/-- The ends of a box that encloses a point are in order. -/
theorem Encloses.ordered (h : box.Encloses x) :
    ∀ ends ∈ box.lower.zip box.upper, ends.1 ≤ ends.2 := by
  obtain ⟨hlower, hupper⟩ := h
  simp only [Meets] at hlower hupper
  generalize box.lower = lower, box.upper = upper at hlower hupper ⊢
  induction hlower generalizing upper with
  | nil => simp
  | cons hl _ ih =>
      obtain _ | ⟨hu, hupper⟩ := hupper
      exact List.forall_mem_cons.mpr ⟨LawfulScalar.le_trans hl hu, ih _ hupper⟩

/-- An empty box encloses nothing. -/
theorem not_encloses_of_isEmpty (empty : box.isEmpty = true) : ¬ box.Encloses x := by
  intro h
  obtain ⟨ends, hmem, hlt⟩ := List.any_eq_true.mp empty
  exact LawfulScalar.not_lt_of_le (h.ordered ends hmem) (of_decide_eq_true hlt)

/-- Every end of the box is defined. -/
abbrev Defined (box : Box α) : Prop :=
  box.Ends (isUndefined · = false) (isUndefined · = false)

/-- **One change cuts off the points it does not admit**, and no others, and it cuts on its own side
only. -/
theorem meets_tighten?_iff (ends : box.Defined) (value : isUndefined change.value = false)
    (h : box.tighten? change = some box') : box'.Meets side x
      ↔ box.Meets side x ∧ (change.side = side → change.admits? x = some true) := by
  rw [BoundChange.admits?, Option.map_eq_some_iff]
  rcases tighten?_eq_some_iff.mp h with ⟨hside, hvar, rfl⟩ | ⟨hside, hvar, rfl⟩
  · have asks : ∀ u ∈ box.upper, ∀ v,
        v ≤ lesser u change.value ↔ v ≤ u ∧ change.allows v = true := fun u hu v => by
      rw [LawfulScalar.le_lesser_iff (ends.upper u hu) value, BoundChange.allows, hside,
        decide_eq_true_eq]
    cases side with
    | upper =>
        simp only [hside, true_implies]
        exact forall₂_modify_iff asks hvar
    | lower => simp [hside, Meets]
  · have asks : ∀ l ∈ box.lower, ∀ v,
        v ≥ greater l change.value ↔ v ≥ l ∧ change.allows v = true := fun l hl v => by
      rw [ge_iff_le, LawfulScalar.greater_le_iff (ends.lower l hl) value, BoundChange.allows, hside,
        decide_eq_true_eq]
    cases side with
    | upper => simp [hside, Meets]
    | lower =>
        simp only [hside, true_implies]
        exact forall₂_modify_iff asks hvar

omit [LawfulScalar α] in
theorem Defined.tighten? (ends : box.Defined) (value : isUndefined change.value = false)
    (h : box.tighten? change = some box') : box'.Defined :=
  Ends.tighten? ends (fun _ hl => greater_ind (P := (isUndefined · = false)) hl value)
    (fun _ hu => lesser_ind (P := (isUndefined · = false)) hu value) h

omit [LawfulScalar α] in
theorem Defined.foldlM_tighten? {changes : List (BoundChange α)} (ends : box.Defined)
    (values : ∀ change ∈ changes, isUndefined change.value = false)
    (h : changes.foldlM Box.tighten? box = some box') : box'.Defined :=
  Ends.foldlM_tighten? ends
    (fun change hc _ hl => greater_ind (P := (isUndefined · = false)) hl (values change hc))
    (fun change hc _ hu => lesser_ind (P := (isUndefined · = false)) hu (values change hc)) h

/-- **Folding changes into a box cuts off the points they do not admit**, and no others. -/
theorem meets_foldlM_tighten?_iff {changes : List (BoundChange α)} (ends : box.Defined)
    (values : ∀ change ∈ changes, isUndefined change.value = false)
    (h : changes.foldlM Box.tighten? box = some box') : box'.Meets side x
      ↔ box.Meets side x
        ∧ ∀ change ∈ changes, change.side = side → change.admits? x = some true := by
  induction changes generalizing box with
  | nil =>
      cases Option.some.inj h
      simp
  | cons change rest ih =>
      obtain ⟨mid, hmid, hrest⟩ := foldlM_tighten?_cons.mp h
      obtain ⟨value, values⟩ := List.forall_mem_cons.mp values
      rw [ih (ends.tighten? value hmid) values hrest, meets_tighten?_iff ends value hmid,
        List.forall_mem_cons, and_assoc]

theorem encloses_foldlM_tighten?_iff {changes : List (BoundChange α)} (ends : box.Defined)
    (values : ∀ change ∈ changes, isUndefined change.value = false)
    (h : changes.foldlM Box.tighten? box = some box') :
    box'.Encloses x ↔ box.Encloses x ∧ ∀ change ∈ changes, change.admits? x = some true := by
  have halves (box : Box α) : box.Encloses x ↔ box.Meets .lower x ∧ box.Meets .upper x :=
    ⟨fun hx => ⟨hx.lower, hx.upper⟩, fun hx => ⟨hx.1, hx.2⟩⟩
  rw [halves, halves, meets_foldlM_tighten?_iff ends values h,
    meets_foldlM_tighten?_iff ends values h, and_and_and_comm]
  refine and_congr_right fun _ => ⟨fun admits change hchange => ?_, fun admits => ?_⟩
  · cases hside : change.side with
    | lower => exact admits.1 change hchange hside
    | upper => exact admits.2 change hchange hside
  · exact ⟨fun change hchange _ => admits change hchange, fun change hchange _ =>
      admits change hchange⟩

theorem defined_nonnegative (n : ℕ) : (nonnegative n : Box α).Defined :=
  ends_nonnegative LawfulScalar.defined_zero LawfulScalar.defined_infinity n

/-- At the start a box encloses the points that are not negative. -/
theorem encloses_nonnegative_iff {n : ℕ} :
    (nonnegative n).Encloses x ↔ x.length = n ∧ ∀ v ∈ x, 0 ≤ v := by
  constructor
  · intro h
    exact forall₂_replicate_iff.mp h.lower
  · rintro ⟨hlength, nonneg⟩
    have defined : ∀ v ∈ x, v ≤ infinity := fun v hv =>
      LawfulScalar.le_infinity (LawfulScalar.defined_of_le (nonneg v hv)).2
    exact ⟨forall₂_replicate_iff.mpr ⟨hlength, nonneg⟩,
      forall₂_replicate_iff.mpr ⟨hlength, defined⟩⟩

/-! ### Boxes of more changes -/

/-- Each interval of the box lies in the interval of the other one. -/
structure Narrows (box box' : Box α) : Prop where
  lower : List.Forall₂ (· ≥ ·) box.lower box'.lower
  upper : List.Forall₂ (· ≤ ·) box.upper box'.upper

/-- The ends of a box on one side meet the ends of that side. -/
theorem Defined.meets_lower (ends : box.Defined) : box.Meets .lower box.lower :=
  List.forall₂_same.mpr fun l hl => LawfulScalar.le_refl (ends.lower l hl)

theorem Defined.meets_upper (ends : box.Defined) : box.Meets .upper box.upper :=
  List.forall₂_same.mpr fun u hu => LawfulScalar.le_refl (ends.upper u hu)

/-- **More changes narrow a box.**  The ends after all the changes are what the others admit. -/
theorem narrows_of_subset {changes more : List (BoundChange α)} {start : Box α}
    (ends : start.Defined) (values : ∀ change ∈ more, isUndefined change.value = false)
    (subset : changes ⊆ more) (h : changes.foldlM Box.tighten? start = some box)
    (h' : more.foldlM Box.tighten? start = some box') : box'.Narrows box := by
  have fewer : ∀ change ∈ changes, isUndefined change.value = false := fun change hchange =>
    values change (subset hchange)
  have meets {side : Side} {x : List α} (hx : box'.Meets side x) : box.Meets side x := by
    obtain ⟨hstart, admits⟩ := (meets_foldlM_tighten?_iff ends values h').mp hx
    exact (meets_foldlM_tighten?_iff ends fewer h).mpr
      ⟨hstart, fun change hchange => admits change (subset hchange)⟩
  have ends' := ends.foldlM_tighten? values h'
  exact ⟨meets ends'.meets_lower, meets ends'.meets_upper⟩

omit [LawfulScalar α] in
/-- Boxes that narrow each other are equal, if values that do not exceed each other are. -/
theorem Narrows.antisymm (antisymm : ∀ a b : α, a ≤ b → b ≤ a → a = b) (h : box.Narrows box')
    (h' : box'.Narrows box) : box = box' := by
  have lower := List.forall₂_iff_get.mp h.lower
  have lower' := List.forall₂_iff_get.mp h'.lower
  have upper := List.forall₂_iff_get.mp h.upper
  have upper' := List.forall₂_iff_get.mp h'.upper
  obtain ⟨l, u⟩ := box
  obtain ⟨l', u'⟩ := box'
  congr 1
  · exact List.ext_get lower.1 fun i hi hi' => antisymm _ _ (lower'.2 i hi' hi) (lower.2 i hi hi')
  · exact List.ext_get upper.1 fun i hi hi' => antisymm _ _ (upper.2 i hi hi') (upper'.2 i hi' hi)

end Box

/-- **The box of a subproblem encloses the points `x ≥ 0` that every change admits.** -/
theorem Subproblem.encloses_box?_iff [LawfulScalar α] {sub : Subproblem α} {box : Box α}
    {x : List α} (values : ∀ change ∈ sub.changes, isUndefined change.value = false)
    (h : sub.box? = some box) :
    box.Encloses x ↔ (x.length = sub.program.numVars ∧ ∀ v ∈ x, 0 ≤ v)
      ∧ ∀ change ∈ sub.changes, change.admits? x = some true := by
  rw [Box.encloses_foldlM_tighten?_iff (Box.defined_nonnegative _) values h,
    Box.encloses_nonnegative_iff]

/-- **The intervals are what the changes say, taken together.**  If the changes are about variables
of the program and their values are defined, there is a box, and it encloses just the points `x ≥ 0`
that every change admits.  So the order of the changes and their repetition do not count, and more
changes narrow every interval. -/
theorem Program.exists_box?_encloses_iff [LawfulScalar α] (p : Program α)
    {changes : List (BoundChange α)} (inRange : ∀ change ∈ changes, change.var < p.numVars)
    (values : ∀ change ∈ changes, isUndefined change.value = false) :
    ∃ box, (Subproblem.mk p changes).box? = some box
      ∧ (∀ x : List α, x.length = p.numVars →
        (((∀ v ∈ x, 0 ≤ v) ∧ ∀ change ∈ changes, change.admits? x = some true)
          ↔ box.Encloses x))
      ∧ (∀ same : List (BoundChange α), (∀ change, change ∈ same ↔ change ∈ changes) →
        ∃ box', (Subproblem.mk p same).box? = some box' ∧ box'.Narrows box ∧ box.Narrows box'
          ∧ ((∀ a b : α, a ≤ b → b ≤ a → a = b) → box' = box))
      ∧ ∀ more : List (BoundChange α), changes ⊆ more →
        (∀ change ∈ more, change.var < p.numVars) →
        (∀ change ∈ more, isUndefined change.value = false) →
          ∃ box', (Subproblem.mk p more).box? = some box' ∧ box'.Narrows box := by
  have exists_box {these : List (BoundChange α)}
      (range : ∀ change ∈ these, change.var < p.numVars) :
      ∃ box, (Subproblem.mk p these).box? = some box := Subproblem.exists_box? range
  obtain ⟨box, hbox⟩ := exists_box inRange
  have start := Box.defined_nonnegative (α := α) p.numVars
  refine ⟨box, hbox, fun x hlength => ?_, fun same members => ?_,
    fun more subset range defined => ?_⟩
  · rw [Subproblem.encloses_box?_iff values hbox]
    exact and_congr_left fun _ => (and_iff_right hlength).symm
  · have values' : ∀ change ∈ same, isUndefined change.value = false := fun change hchange =>
      values change ((members change).mp hchange)
    obtain ⟨box', hbox'⟩ := exists_box fun change hchange =>
      inRange change ((members change).mp hchange)
    have narrows : box'.Narrows box :=
      Box.narrows_of_subset start values' (fun change => (members change).mpr) hbox hbox'
    have widens : box.Narrows box' :=
      Box.narrows_of_subset start values (fun change => (members change).mp) hbox' hbox
    exact ⟨box', hbox', narrows, widens, fun antisymm => narrows.antisymm antisymm widens⟩
  · obtain ⟨box', hbox'⟩ := exists_box range
    exact ⟨box', hbox', Box.narrows_of_subset start defined subset hbox hbox'⟩

open ExtRat (num)

/-- Two variables and nothing else. -/
def quadrant : Program ExtRat := ⟨[num 1, num 1], .ofEntries 2 [], []⟩

/-- Changes on both sides of one variable, which cross, and a negative one on the other. -/
def crossed : List (BoundChange ExtRat) :=
  [⟨0, .upper, num 1⟩, ⟨1, .lower, num (-1)⟩, ⟨0, .lower, num 2⟩, ⟨0, .upper, num 4⟩]

/-- The order and the repetition of the changes do not count, though their intervals are empty. -/
theorem exists_box?_encloses_iff_quadrant :
    (∀ change ∈ crossed, change.var < quadrant.numVars)
      ∧ (∀ change ∈ crossed, isUndefined change.value = false)
      ∧ (Subproblem.mk quadrant crossed).box? = some ⟨[num 2, num 0], [num 1, .posInf]⟩
      ∧ (Subproblem.mk quadrant (crossed.reverse ++ crossed)).box?
        = some ⟨[num 2, num 0], [num 1, .posInf]⟩ := by
  have inRange : ∀ change ∈ crossed, change.var < quadrant.numVars := by decide
  have values : ∀ change ∈ crossed, isUndefined change.value = false := by decide +kernel
  have computed : (Subproblem.mk quadrant crossed).box?
      = some ⟨[num 2, num 0], [num 1, .posInf]⟩ := by decide +kernel
  obtain ⟨box, hbox, -, same, -⟩ := quadrant.exists_box?_encloses_iff inRange values
  obtain ⟨box', hbox', -, -, equal⟩ := same (crossed.reverse ++ crossed) (by simp)
  cases hbox.symm.trans computed
  exact ⟨inRange, values, computed, equal (fun _ _ => ExtRat.le_antisymm) ▸ hbox'⟩

end IntegerProgramming
