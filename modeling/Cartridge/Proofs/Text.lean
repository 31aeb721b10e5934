/-
# `Cartridge.Proofs.Text` — where a text comes apart

A text is put together from pieces, and it is read if the pieces can be told from
the text alone.  There is one reason for all of it: a piece ends in front of the
first character that it cannot hold (`cut_unique`).  From this:

    number     ends in front of what is no digit
    line       ends in front of the end of the line
    group      of lines ends in front of the next heading
-/

namespace Cartridge.Text

/-- What stands first, if anything does, has not the property. -/
def Stops {α : Type} (p : α → Bool) (l : List α) : Prop := ∀ x ∈ l.head?, p x = false

theorem stops_nil {α : Type} (p : α → Bool) : Stops p [] := by
  intro x hx
  cases hx

theorem stops_cons {α : Type} {p : α → Bool} {x : α} (h : p x = false) (l : List α) :
    Stops p (x :: l) := by
  intro y hy
  cases hy
  exact h

theorem takeWhile_of_stops {α : Type} {p : α → Bool} {l r : List α} (hl : ∀ x ∈ l, p x = true)
    (hr : Stops p r) : (l ++ r).takeWhile p = l := by
  rw [List.takeWhile_append_of_pos hl]
  cases r with
  | nil => rw [List.takeWhile_nil, List.append_nil]
  | cons x r =>
      have hx := hr x rfl
      rw [List.takeWhile_cons_of_neg (by simp [hx]), List.append_nil]

theorem dropWhile_of_stops {α : Type} {p : α → Bool} {l r : List α} (hl : ∀ x ∈ l, p x = true)
    (hr : Stops p r) : (l ++ r).dropWhile p = r := by
  rw [List.dropWhile_append_of_pos hl]
  cases r with
  | nil => rfl
  | cons x r =>
      have hx := hr x rfl
      rw [List.dropWhile_cons_of_neg (by simp [hx])]

/-- There is one place where a piece of one kind ends and something else begins. -/
theorem cut_unique {α : Type} {p : α → Bool} {l l' r r' : List α} (hl : ∀ x ∈ l, p x = true)
    (hl' : ∀ x ∈ l', p x = true) (hr : Stops p r) (hr' : Stops p r') (h : l ++ r = l' ++ r') :
    l = l' ∧ r = r' := by
  have hpiece : l = l' := by rw [← takeWhile_of_stops hl hr, h, takeWhile_of_stops hl' hr']
  subst hpiece
  exact ⟨rfl, List.append_cancel_left h⟩

/-- There is one place where a character stands for the last time. -/
theorem last_unique {x : Char} {l l' r r' : List Char} (hr : x ∉ r) (hr' : x ∉ r')
    (h : l ++ x :: r = l' ++ x :: r') : l = l' ∧ r = r' := by
  have hchars : ∀ {r : List Char}, x ∉ r → ∀ c ∈ r.reverse, (c != x) = true := by
    intro r hr c hc
    exact bne_iff_ne.2 fun heq => hr (heq ▸ List.mem_reverse.1 hc)
  have hstops : ∀ l, Stops (· != x) (x :: l) := stops_cons (bne_self_eq_false x)
  -- read backwards, what is behind the character is a piece without it
  have hreverse := congrArg List.reverse h
  simp only [List.reverse_append, List.reverse_cons, List.append_assoc, List.singleton_append]
    at hreverse
  obtain ⟨hbehind, hbefore⟩ := cut_unique (hchars hr) (hchars hr') (hstops _) (hstops _) hreverse
  exact ⟨List.reverse_inj.1 (List.cons.inj hbefore).2, List.reverse_inj.1 hbehind⟩

/-! ## Numbers -/

theorem toDigits_inj {n m : Nat} (h : Nat.toDigits 10 n = Nat.toDigits 10 m) : n = m := by
  rw [← @Nat.ofDigitChars_ten_toDigits n, h, Nat.ofDigitChars_ten_toDigits]

/-- A number is read up to what is no digit. -/
theorem number_unique {n m : Nat} {r r' : List Char} (hr : Stops Char.isDigit r)
    (hr' : Stops Char.isDigit r') (h : Nat.toDigits 10 n ++ r = Nat.toDigits 10 m ++ r') :
    n = m ∧ r = r' := by
  have hdigits : ∀ k, ∀ c ∈ Nat.toDigits 10 k, c.isDigit = true := fun k c hc =>
    Nat.isDigit_of_mem_toDigits (by decide) (by decide) hc
  obtain ⟨hnumber, hrest⟩ := cut_unique (hdigits n) (hdigits m) hr hr' h
  exact ⟨toDigits_inj hnumber, hrest⟩

/-! ## Lines -/

/-- Lines, each with its end. -/
def ofLines (lines : List (List Char)) : List Char := lines.flatMap (· ++ ['\n'])

theorem ofLines_flatten (groups : List (List (List Char))) :
    ofLines groups.flatten = groups.flatMap ofLines := by
  induction groups with
  | nil => rfl
  | cons g groups ih =>
      rw [ofLines] at ih
      rw [List.flatten_cons, ofLines, List.flatMap_append, ih, List.flatMap_cons, ofLines]

/-- A text has the lines that it was made of. -/
theorem ofLines_inj : ∀ {lines lines' : List (List Char)}, (∀ l ∈ lines, '\n' ∉ l) →
    (∀ l ∈ lines', '\n' ∉ l) → ofLines lines = ofLines lines' → lines = lines'
  | [], [], _, _, _ => rfl
  | [], l' :: lines', _, _, h => by
      have := congrArg List.length h
      simp [ofLines] at this
  | l :: lines, [], _, _, h => by
      have := congrArg List.length h
      simp [ofLines] at this
  | l :: lines, l' :: lines', hl, hl', h => by
      have hchars : ∀ {l : List Char}, '\n' ∉ l → ∀ c ∈ l, (c != '\n') = true := by
        intro l hl c hc
        exact bne_iff_ne.2 fun heq => hl (heq ▸ hc)
      have hend : ∀ rest, Stops (· != '\n') ('\n' :: rest) := stops_cons rfl
      rw [ofLines, ofLines, List.flatMap_cons, List.flatMap_cons, List.append_assoc,
        List.append_assoc] at h
      obtain ⟨rfl, hrest⟩ := cut_unique (hchars (hl l List.mem_cons_self))
        (hchars (hl' l' List.mem_cons_self)) (hend _) (hend _) h
      rw [ofLines_inj (fun l hmem => hl l (List.mem_cons_of_mem _ hmem))
        (fun l hmem => hl' l (List.mem_cons_of_mem _ hmem)) (List.cons.inj hrest).2]

/-! ## Groups -/

/-- A heading and what belongs to it. -/
def IsGroup {α : Type} (head : α → Bool) (g : List α) : Prop :=
  ∃ x rest, g = x :: rest ∧ head x = true ∧ ∀ y ∈ rest, head y = false

/-- Groups that stand one behind another are told apart by their headings. -/
theorem groups_unique {α : Type} {head : α → Bool} : ∀ {gs gs' : List (List α)},
    (∀ g ∈ gs, IsGroup head g) → (∀ g ∈ gs', IsGroup head g) → gs.flatten = gs'.flatten → gs = gs'
  | [], [], _, _, _ => rfl
  | [], g' :: gs', _, hg', h => by
      obtain ⟨x, rest, rfl, -⟩ := hg' g' List.mem_cons_self
      cases h
  | g :: gs, [], hg, _, h => by
      obtain ⟨x, rest, rfl, -⟩ := hg g List.mem_cons_self
      cases h
  | g :: gs, g' :: gs', hg, hg', h => by
      have hstops : ∀ {gs : List (List α)}, (∀ g ∈ gs, IsGroup head g) →
          Stops (fun y => !head y) gs.flatten := by
        intro gs hgs
        cases gs with
        | nil => exact stops_nil _
        | cons g gs =>
            obtain ⟨x, rest, rfl, hx, -⟩ := hgs g List.mem_cons_self
            exact stops_cons (by simp [hx]) _
      obtain ⟨x, rest, rfl, -, hrest⟩ := hg g List.mem_cons_self
      obtain ⟨x', rest', rfl, -, hrest'⟩ := hg' g' List.mem_cons_self
      have htail := fun g hmem => hg g (List.mem_cons_of_mem _ hmem)
      have htail' := fun g hmem => hg' g (List.mem_cons_of_mem _ hmem)
      rw [List.flatten_cons, List.flatten_cons, List.cons_append, List.cons_append] at h
      obtain ⟨rfl, hflat⟩ := List.cons.inj h
      obtain ⟨rfl, hothers⟩ := cut_unique (by simpa using hrest) (by simpa using hrest')
        (hstops htail) (hstops htail') hflat
      rw [groups_unique htail htail' hothers]

end Cartridge.Text
