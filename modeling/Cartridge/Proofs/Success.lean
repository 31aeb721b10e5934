/-
# `Cartridge.Proofs.Success` — what a successful chain of steps went through

A chain of steps succeeds if and only if each of its steps does, one after the
other on the state that the step before it left, and it fails with the first
step that fails.  These are the inversions by which every proof about a run
takes it apart.  The reasons for which a chain can fail are those of its steps
(`StopsWithin`, `FailsWithin`).
-/
import Cartridge.Fault

namespace Cartridge

variable {ε σ α β : Type}

/-- A chain of two steps on a state succeeds. -/
theorem bind_eq_ok_iff {x : EStateM ε σ α} {f : α → EStateM ε σ β} {s t : σ} {b : β} :
    (x >>= f) s = .ok b t ↔ ∃ a u, x s = .ok a u ∧ f a u = .ok b t := by
  show EStateM.bind x f s = .ok b t ↔ _
  unfold EStateM.bind
  cases h : x s with
  | ok a u =>
      constructor
      · intro hf
        exact ⟨a, u, rfl, hf⟩
      · rintro ⟨a, u, ⟨⟩, hf⟩
        exact hf
  | error e u => simp

/-- A chain of two steps on a state fails with its first or with its second. -/
theorem bind_eq_error_iff {x : EStateM ε σ α} {f : α → EStateM ε σ β} {s t : σ} {e : ε} :
    (x >>= f) s = .error e t ↔ x s = .error e t ∨ ∃ a u, x s = .ok a u ∧ f a u = .error e t := by
  show EStateM.bind x f s = .error e t ↔ _
  unfold EStateM.bind
  cases h : x s with
  | ok a u =>
      constructor
      · intro hf
        exact .inr ⟨a, u, rfl, hf⟩
      · rintro (hfirst | ⟨a, u, ⟨⟩, hf⟩)
        · cases hfirst
        · exact hf
  | error e u => simp

/-- Does a step succeed, with a result that passes the test? -/
def yields (x : EStateM ε σ α) (s : σ) (test : α → Bool) : Bool :=
  match x s with
  | .ok a _ => test a
  | .error _ _ => false

theorem exists_of_yields {x : EStateM ε σ α} {s : σ} {test : α → Bool}
    (h : yields x s test = true) : ∃ a t, x s = .ok a t ∧ test a = true := by
  unfold yields at h
  split at h
  · next a t ht => exact ⟨a, t, ht, h⟩
  · cases h

/-- Does a step stop, for a reason that passes the test? -/
def stops (x : EStateM ε σ α) (s : σ) (test : ε → Bool) : Bool :=
  match x s with
  | .ok _ _ => false
  | .error e _ => test e

theorem exists_of_stops {x : EStateM ε σ α} {s : σ} {test : ε → Bool}
    (h : stops x s test = true) : ∃ e t, x s = .error e t ∧ test e = true := by
  unfold stops at h
  split at h
  · cases h
  · next e t ht => exact ⟨e, t, ht, h⟩

theorem pure_eq_ok_iff {s t : σ} {a b : α} :
    (pure a : EStateM ε σ α) s = .ok b t ↔ a = b ∧ s = t := by
  show EStateM.Result.ok a s = .ok b t ↔ _
  simp

/-- A chain of two results succeeds. -/
theorem except_bind_eq_ok_iff {x : Except ε α} {f : α → Except ε β} {b : β} :
    (x >>= f) = .ok b ↔ ∃ a, x = .ok a ∧ f a = .ok b := by
  cases x with
  | ok a => simp [bind, Except.bind]
  | error e => simp [bind, Except.bind]

/-- A chain of two results fails with its first or with its second. -/
theorem except_bind_eq_error_iff {x : Except ε α} {f : α → Except ε β} {e : ε} :
    (x >>= f) = .error e ↔ x = .error e ∨ ∃ a, x = .ok a ∧ f a = .error e := by
  cases x with
  | ok a => simp [bind, Except.bind]
  | error e => simp [bind, Except.bind]

/-- Results for all elements of a list, each of which can only be that of `g`. -/
theorem mapM_eq_ok {f : α → Except ε β} {g : α → β} (hg : ∀ a b, f a = .ok b → b = g a) :
    ∀ {as : List α} {bs : List β}, as.mapM f = .ok bs → bs = as.map g ∧ ∀ a ∈ as, f a = .ok (g a)
  | [], bs, h => by
      cases h
      exact ⟨rfl, List.forall_mem_nil _⟩
  | a :: as, bs, h => by
      rw [List.mapM_cons] at h
      obtain ⟨b, hb, h⟩ := except_bind_eq_ok_iff.1 h
      obtain ⟨bs', hbs, h⟩ := except_bind_eq_ok_iff.1 h
      cases h
      obtain rfl := hg a b hb
      obtain ⟨rfl, hall⟩ := mapM_eq_ok hg hbs
      exact ⟨rfl, List.forall_mem_cons.2 ⟨hb, hall⟩⟩

/-- Without a result for one of its elements there is none for a list. -/
theorem exists_of_mapM_eq_error {f : α → Except ε β} {e : ε} :
    ∀ {as : List α}, as.mapM f = .error e → ∃ a ∈ as, f a = .error e
  | [], h => by cases h
  | a :: as, h => by
      rw [List.mapM_cons] at h
      rcases except_bind_eq_error_iff.1 h with hfirst | ⟨b, -, hrest⟩
      · exact ⟨a, List.mem_cons_self, hfirst⟩
      · rcases except_bind_eq_error_iff.1 hrest with hlater | ⟨bs, -, hcons⟩
        · obtain ⟨a', ha', hfail⟩ := exists_of_mapM_eq_error hlater
          exact ⟨a', List.mem_cons_of_mem a ha', hfail⟩
        · cases hcons

theorem except_map_eq_ok_iff {x : Except ε α} {f : α → β} {b : β} :
    x.map f = .ok b ↔ ∃ a, x = .ok a ∧ f a = b := by
  cases x with
  | ok a => simp [Except.map]
  | error e => simp [Except.map]

theorem except_map_eq_error_iff {x : Except ε α} {f : α → β} {e : ε} :
    x.map f = .error e ↔ x = .error e := by
  cases x with
  | ok a => simp [Except.map]
  | error e => simp [Except.map]

theorem toOption_eq_some_iff {x : Except ε α} {a : α} : x.toOption = some a ↔ x = .ok a := by
  cases x with
  | ok b => simp [Except.toOption]
  | error e => simp [Except.toOption]

theorem orFault_eq_ok_iff {f : Fault} {o : Option α} {a : α} :
    (orFault f o : Except (Stop ε) α) = .ok a ↔ o = some a := by
  cases o with
  | none => simp [orFault]
  | some b => simp [orFault]

/-! ## Reasons to fail -/

/-- A step on a state fails for none but these reasons. -/
def StopsWithin (reason : ε → Prop) (x : EStateM ε σ α) : Prop :=
  ∀ s e t, x s = .error e t → reason e

/-- A result fails for none but these reasons. -/
def FailsWithin (reason : ε → Prop) (x : Except ε α) : Prop := ∀ e, x = .error e → reason e

variable {reason : ε → Prop}

theorem StopsWithin.pure (a : α) : StopsWithin reason (pure a : EStateM ε σ α) := by
  intro s e t h
  cases h

theorem StopsWithin.bind {x : EStateM ε σ α} {f : α → EStateM ε σ β} (hx : StopsWithin reason x)
    (hf : ∀ a, StopsWithin reason (f a)) : StopsWithin reason (x >>= f) := by
  intro s e t h
  rcases bind_eq_error_iff.1 h with hfirst | ⟨a, u, -, hsecond⟩
  · exact hx s e t hfirst
  · exact hf a u e t hsecond

theorem FailsWithin.ok (a : α) : FailsWithin reason (.ok a : Except ε α) := by
  intro e h
  cases h

theorem FailsWithin.bind {x : Except ε α} {f : α → Except ε β} (hx : FailsWithin reason x)
    (hf : ∀ a, FailsWithin reason (f a)) : FailsWithin reason (x >>= f) := by
  intro e h
  cases x with
  | error e' =>
      cases h
      exact hx e rfl
  | ok a => exact hf a e h

theorem FailsWithin.map {x : Except ε α} (hx : FailsWithin reason x) (f : α → β) :
    FailsWithin reason (x.map f) := by
  intro e h
  cases x with
  | error e' =>
      cases h
      exact hx e rfl
  | ok a => cases h

end Cartridge
