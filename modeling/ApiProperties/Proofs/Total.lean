import ApiProperties.Synthesis

/-!
List operations whose steps answer `Option`, for the case that every step answers. Lookups by id are
such steps: on a consistent model they cannot fail, and then each walk is its plain counterpart.
-/

set_option autoImplicit false

namespace ApiProperties

section Walks
variable {α β σ : Type} {l : List α}

theorem anyM_eq_some {f : α → Option Bool} {p : α → Bool} (h : ∀ x ∈ l, f x = some (p x)) :
    l.anyM f = some (l.any p) := by
  induction l with
  | nil => rfl
  | cons x rest ih =>
    have hrest := ih fun y hy => h y (List.mem_cons_of_mem x hy)
    rw [List.anyM, h x List.mem_cons_self]
    cases hp : p x <;> simp [hp, hrest]

theorem mapM_eq_some {f : α → Option β} (h : ∀ x ∈ l, ∃ y, f x = some y) :
    l.mapM f = some (l.filterMap f) := by
  induction l with
  | nil => rfl
  | cons x rest ih =>
    obtain ⟨y, hy⟩ := h x List.mem_cons_self
    simp [hy, ih fun z hz => h z (List.mem_cons_of_mem x hz)]

theorem filterAuxM_eq_some {f : α → Option Bool} {p : α → Bool} (h : ∀ x ∈ l, f x = some (p x))
    (acc : List α) : l.filterAuxM f acc = some ((l.filter p).reverse ++ acc) := by
  induction l generalizing acc with
  | nil => rfl
  | cons x rest ih =>
    have hrest := ih fun y hy => h y (List.mem_cons_of_mem x hy)
    cases hp : p x <;> simp [List.filterAuxM, h x List.mem_cons_self, hp, hrest]

theorem filterM_eq_some {f : α → Option Bool} {p : α → Bool} (h : ∀ x ∈ l, f x = some (p x)) :
    l.filterM f = some (l.filter p) := by
  simp [List.filterM, filterAuxM_eq_some h]

theorem anyM_congr {f g : α → Option Bool} (h : ∀ x ∈ l, f x = g x) : l.anyM f = l.anyM g := by
  induction l with
  | nil => rfl
  | cons x rest ih =>
    rw [List.anyM, List.anyM, h x List.mem_cons_self, ih fun y hy => h y (List.mem_cons_of_mem x hy)]

/-- The answer is the first element that satisfies `f`. -/
theorem firstIndex?_found {f : α → Option Bool} {i : Nat} (h : firstIndex? f l = some (some i)) :
    ∃ l₁ x l₂, l = l₁ ++ x :: l₂ ∧ l₁.length = i ∧ f x = some true ∧ ∀ y ∈ l₁, f y = some false := by
  induction l generalizing i with
  | nil => simp [firstIndex?] at h
  | cons x rest ih =>
    cases hx : f x with
    | none => simp [firstIndex?, hx] at h
    | some b =>
      cases b with
      | true =>
        obtain rfl : 0 = i := by simpa [firstIndex?, hx] using h
        exact ⟨[], x, rest, rfl, rfl, hx, by simp⟩
      | false =>
        cases hrest : firstIndex? f rest with
        | none => simp [firstIndex?, hx, hrest] at h
        | some o =>
          cases o with
          | none => simp [firstIndex?, hx, hrest] at h
          | some n =>
            obtain rfl : n + 1 = i := by simpa [firstIndex?, hx, hrest] using h
            obtain ⟨l₁, y, l₂, rfl, rfl, hf, hbefore⟩ := ih hrest
            exact ⟨x :: l₁, y, l₂, rfl, rfl, hf, List.forall_mem_cons.2 ⟨hx, hbefore⟩⟩

theorem firstIndex?_of_split {f : α → Option Bool} {l₁ l₂ : List α} {x : α}
    (h : ∀ y ∈ l₁, f y = some false) (hx : f x = some true) :
    firstIndex? f (l₁ ++ x :: l₂) = some (some l₁.length) := by
  induction l₁ with
  | nil => simp [firstIndex?, hx]
  | cons y rest ih =>
    obtain ⟨hy, hrest⟩ := List.forall_mem_cons.1 h
    simp [firstIndex?, hy, ih hrest]

theorem firstIndex?_eq_none {f : α → Option Bool} :
    firstIndex? f l = some none ↔ ∀ x ∈ l, f x = some false := by
  induction l with
  | nil => simp [firstIndex?]
  | cons x rest ih =>
    cases hx : f x with
    | none => simp [firstIndex?, hx]
    | some b =>
      cases b with
      | true => simp [firstIndex?, hx]
      | false =>
        rw [List.forall_mem_cons, ← ih]
        cases hrest : firstIndex? f rest <;> simp [firstIndex?, hx, hrest]

theorem firstIndex?_total {f : α → Option Bool} (h : ∀ x ∈ l, ∃ b, f x = some b) :
    (∃ (i : Nat) (x : α), firstIndex? f l = some (some i) ∧ l[i]? = some x ∧ f x = some true) ∨
      firstIndex? f l = some none ∧ ∀ x ∈ l, f x = some false := by
  induction l with
  | nil => exact .inr ⟨rfl, by simp⟩
  | cons x rest ih =>
    obtain ⟨b, hb⟩ := h x List.mem_cons_self
    cases b with
    | true => exact .inl ⟨0, x, by simp [firstIndex?, hb], rfl, hb⟩
    | false =>
      rcases ih fun y hy => h y (List.mem_cons_of_mem x hy) with ⟨i, y, hi, hy, hf⟩ | ⟨hi, hall⟩
      · exact .inl ⟨i + 1, y, by simp [firstIndex?, hb, hi], by simpa using hy, hf⟩
      · exact .inr ⟨by simp [firstIndex?, hb, hi], by simpa [hb] using hall⟩

/-- A walk whose every step answers under `P` answers, and leaves `P` with nothing to do. -/
theorem foldlM_total {f : σ → α → Option σ} (P : σ → List α → Prop)
    (step : ∀ s x rest, P s (x :: rest) → ∃ t, f s x = some t ∧ P t rest) :
    ∀ {l : List α} {s : σ}, P s l → ∃ t, l.foldlM f s = some t ∧ P t []
  | [], s, h => ⟨s, rfl, h⟩
  | x :: rest, s, h => by
    obtain ⟨t, ht, hrest⟩ := step s x rest h
    obtain ⟨u, hu, hP⟩ := foldlM_total P step hrest
    exact ⟨u, by simp [ht, hu], hP⟩

theorem firstIndex?_congr {f g : α → Option Bool} (h : ∀ x ∈ l, f x = g x) :
    firstIndex? f l = firstIndex? g l := by
  induction l with
  | nil => rfl
  | cons x rest ih =>
    rw [firstIndex?, firstIndex?, h x List.mem_cons_self,
      ih fun y hy => h y (List.mem_cons_of_mem x hy)]

end Walks
end ApiProperties
