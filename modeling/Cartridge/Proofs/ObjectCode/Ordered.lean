/-
# `Cartridge.Proofs.ObjectCode.Ordered` — lines are orders

A draft gives a label of the block tree a label of the assembler when it first
meets it.  Which one depends on the lines so far and not on the base, and so do
the orders that the assembler gets:

    op m o                        op m o
    mark l, jump l, branch m l    a label is handed out first if `l` is new, then
                                  it is bound, jumped to or branched to
    spin                          a label is handed out, bound and jumped to

Proved here: lines are a row of orders that names no address (`exists_orders`),
so what holds of orders at any base holds of lines.
-/
import Cartridge.Proofs.Assembly.Relocation

namespace Cartridge

namespace Order

theorem runAll_append_iff {front back : List Order} {a c : Assembler} :
    runAll (front ++ back) a = .ok () c ↔
      ∃ b, runAll front a = .ok () b ∧ runAll back b = .ok () c := by
  induction front generalizing a with
  | nil =>
      constructor
      · intro h
        exact ⟨a, rfl, h⟩
      · rintro ⟨b, hb, hc⟩
        obtain ⟨-, rfl⟩ := pure_eq_ok_iff.1 hb
        exact hc
  | cons order front ih =>
      simp only [List.cons_append, runAll, bind_eq_ok_iff, ih]
      constructor
      · rintro ⟨u, b, hrun, c', hfront, hback⟩
        exact ⟨c', ⟨u, b, hrun, hfront⟩, hback⟩
      · rintro ⟨c', ⟨u, b, hrun, hfront⟩, hback⟩
        exact ⟨u, b, hrun, c', hfront, hback⟩

theorem runAll_singleton_iff {order : Order} {a b : Assembler} :
    runAll [order] a = .ok () b ↔ order.run a = .ok () b := by
  simp only [runAll, bind_eq_ok_iff, pure_eq_ok_iff]
  constructor
  · rintro ⟨_, _, hrun, -, rfl⟩
    exact hrun
  · intro hrun
    exact ⟨(), b, hrun, trivial, rfl⟩

theorem sizeAll_append (front back : List Order) :
    sizeAll (front ++ back) = sizeAll front + sizeAll back := by
  induction front with
  | nil => exact (Nat.zero_add _).symm
  | cons order front ih => rw [List.cons_append, sizeAll, sizeAll, ih, Nat.add_assoc]

theorem LabelsOnly.append {front back : List Order} (h : LabelsOnly front)
    (h' : LabelsOnly back) : LabelsOnly (front ++ back) := by
  intro m x hx
  rcases List.mem_append.1 hx with hx | hx
  · exact h m x hx
  · exact h' m x hx

/-- The number of labels that an order hands out. -/
def handed : Order → Nat
  | .freshLabel => 1
  | _ => 0

/-- The number of labels that orders hand out. -/
def handedAll : List Order → Nat
  | [] => 0
  | order :: orders => order.handed + handedAll orders

theorem size_labels_of_run {order : Order} {a a' : Assembler} (h : order.run a = .ok () a') :
    a'.labels.size = a.labels.size + order.handed := by
  cases order with
  | op m o =>
      obtain ⟨_, -, -, rfl⟩ := Assembler.op_eq_ok h
      rfl
  | branchAt m x =>
      obtain ⟨_, -, hop⟩ := Assembler.branchAt_eq_ok h
      obtain ⟨_, -, -, rfl⟩ := Assembler.op_eq_ok hop
      rfl
  | freshLabel =>
      obtain rfl := Assembler.freshLabel_eq_ok h
      exact Array.size_push _
  | bind l =>
      obtain ⟨-, rfl⟩ := Assembler.bind_eq_ok h
      exact Array.size_setIfInBounds
  | branchTo m l =>
      rcases Assembler.branchTo_eq_ok h with ⟨_, _, _, -, -, -, -, rfl⟩ | ⟨_, -, -, rfl⟩ <;> rfl
  | jumpTo l =>
      obtain ⟨-, rfl⟩ := Assembler.jumpTo_eq_ok h
      rfl

theorem size_labels_of_runAll {orders : List Order} {a a' : Assembler}
    (h : runAll orders a = .ok () a') : a'.labels.size = a.labels.size + handedAll orders := by
  induction orders generalizing a with
  | nil =>
      obtain ⟨-, rfl⟩ := pure_eq_ok_iff.1 h
      rfl
  | cons order orders ih =>
      obtain ⟨_, b, hrun, hrest⟩ := bind_eq_ok_iff.1 h
      rw [ih hrest, size_labels_of_run hrun, handedAll, Nat.add_assoc]

end Order

/-! ## Lines are orders -/

namespace Draft

/-- On a draft with `marks` and `n` labels the step is the row of orders, and
leaves `marks'`. -/
def Ordered (marks : List (LabelId × Nat)) (n : Nat) (step : Step Unit) (orders : List Order)
    (marks' : List (LabelId × Nat)) : Prop :=
  ∀ (a : Assembler) (d : Draft), a.labels.size = n →
    (step ⟨a, marks⟩ = .ok () d ↔ ∃ a', Order.runAll orders a = .ok () a' ∧ d = ⟨a', marks'⟩)

theorem Ordered.bind {marks marks₁ marks₂ : List (LabelId × Nat)} {n : Nat} {step step' : Step Unit}
    {orders orders' : List Order} (h : Ordered marks n step orders marks₁)
    (h' : Ordered marks₁ (n + Order.handedAll orders) step' orders' marks₂) :
    Ordered marks n (do step; step') (orders ++ orders') marks₂ := by
  intro a d ha
  have hlabels : ∀ b, Order.runAll orders a = .ok () b →
      b.labels.size = n + Order.handedAll orders := by
    intro b hrun
    rw [Order.size_labels_of_runAll hrun, ha]
  simp only [bind_eq_ok_iff, Order.runAll_append_iff]
  constructor
  · rintro ⟨_, mid, hstep, hstep'⟩
    obtain ⟨b, hrun, rfl⟩ := (h a mid ha).1 hstep
    obtain ⟨c, hrun', rfl⟩ := (h' b d (hlabels b hrun)).1 hstep'
    exact ⟨c, ⟨b, hrun, hrun'⟩, rfl⟩
  · rintro ⟨c, ⟨b, hrun, hrun'⟩, rfl⟩
    exact ⟨(), ⟨b, marks₁⟩, (h a _ ha).2 ⟨b, hrun, rfl⟩,
      (h' b _ (hlabels b hrun)).2 ⟨c, hrun', rfl⟩⟩

/-- A step of the assembler that is a row of orders. -/
theorem ordered_assembling {step : Asm Unit} {orders : List Order} {n : Nat}
    (h : ∀ a a' : Assembler, a.labels.size = n →
      (step a = .ok () a' ↔ Order.runAll orders a = .ok () a')) (marks : List (LabelId × Nat)) :
    Ordered marks n (assembling step) orders marks := by
  intro a d ha
  constructor
  · intro hd
    obtain ⟨a', hstep, rfl⟩ := assembling_eq_ok hd
    exact ⟨a', (h a a' ha).1 hstep, rfl⟩
  · rintro ⟨a', hrun, rfl⟩
    rw [assembling, (h a a' ha).2 hrun]

theorem ordered_run (order : Order) (n : Nat) (marks : List (LabelId × Nat)) :
    Ordered marks n (assembling order.run) [order] marks :=
  ordered_assembling (fun _ _ _ => Order.runAll_singleton_iff.symm) marks

/-- An order for a label of the tree is preceded by one for a new label of the
assembler, if there is none yet. -/
theorem exists_ordered_labelled (marks : List (LabelId × Nat)) (n : Nat) (l : LabelId)
    (order : Nat → Order) (horder : ∀ k m x, order k ≠ .branchAt m x) {size : Nat}
    (hsize : ∀ k, (order k).size = size) :
    ∃ orders marks', Order.LabelsOnly orders ∧ Order.sizeAll orders = size ∧
      Ordered marks n (do let k ← labelFor l; assembling (order k).run) orders marks' := by
  cases hl : marks.lookup l with
  | some k =>
      refine ⟨[order k], marks, fun m x hx => ?_, hsize k, fun a d ha => ?_⟩
      · exact horder k m x (List.mem_singleton.1 hx).symm
      · have hlabel : labelFor l ⟨a, marks⟩ = .ok k ⟨a, marks⟩ := by
          unfold labelFor
          dsimp only
          rw [hl]
        have hstep : (do let k ← labelFor l; assembling (order k).run) ⟨a, marks⟩ =
            assembling (order k).run ⟨a, marks⟩ := by
          simp only [Bind.bind, EStateM.bind, hlabel]
        rw [hstep]
        exact ordered_run (order k) n marks a d ha
  | none =>
      refine ⟨[.freshLabel, order n], (l, n) :: marks, fun m x hx => ?_, ?_, fun a d ha => ?_⟩
      · rcases List.mem_cons.1 hx with hx | hx
        · cases hx
        · exact horder n m x (List.mem_singleton.1 hx).symm
      · exact (Nat.zero_add _).trans (hsize n)
      · have hlabel : labelFor l ⟨a, marks⟩ =
            .ok n ⟨{ a with labels := a.labels.push none }, (l, n) :: marks⟩ := by
          unfold labelFor
          dsimp only
          rw [hl, ← ha]
          rfl
        have hstep : (do let k ← labelFor l; assembling (order k).run) ⟨a, marks⟩ =
            assembling (order n).run
              ⟨{ a with labels := a.labels.push none }, (l, n) :: marks⟩ := by
          simp only [Bind.bind, EStateM.bind, hlabel]
        rw [hstep, ordered_run (order n) (n + 1) _ _ d (by rw [Array.size_push, ha])]
        rfl

/-- Every line is a row of orders without addresses, of its size. -/
theorem exists_ordered_put (marks : List (LabelId × Nat)) (n : Nat) (line : Line) :
    ∃ orders marks', Order.LabelsOnly orders ∧ Order.sizeAll orders = line.size ∧
      Ordered marks n (put line) orders marks' := by
  cases line with
  | op m o =>
      exact ⟨[.op m o], marks, by simp [Order.LabelsOnly], rfl, ordered_run (.op m o) n marks⟩
  | mark l =>
      exact exists_ordered_labelled marks n l .bind (fun _ _ _ => Order.noConfusion) fun _ => rfl
  | jump l =>
      exact exists_ordered_labelled marks n l .jumpTo (fun _ _ _ => Order.noConfusion) fun _ => rfl
  | branch m l =>
      exact exists_ordered_labelled marks n l (.branchTo m) (fun _ _ _ => Order.noConfusion)
        fun _ => rfl
  | spin =>
      refine ⟨[.freshLabel, .bind n, .jumpTo n], marks, by simp [Order.LabelsOnly], rfl,
        ordered_assembling (fun a a' ha => ?_) marks⟩
      subst ha
      -- the new label has the number `a.labels.size` on both sides
      show (do Assembler.bind a.labels.size; Assembler.jumpTo a.labels.size)
          { a with labels := a.labels.push none } = .ok () a' ↔
        (do (Order.bind a.labels.size).run; Order.runAll [.jumpTo a.labels.size])
          { a with labels := a.labels.push none } = .ok () a'
      simp only [bind_eq_ok_iff, Order.runAll_singleton_iff]
      rfl

/-- Lines are a row of orders without addresses, of their size. -/
theorem exists_ordered_putLines (marks : List (LabelId × Nat)) (n : Nat) (lines : List Line) :
    ∃ orders marks', Order.LabelsOnly orders ∧ Order.sizeAll orders = Line.sizeAll lines ∧
      Ordered marks n (putLines lines) orders marks' := by
  induction lines generalizing marks n with
  | nil =>
      refine ⟨[], marks, fun _ _ => List.not_mem_nil, rfl, fun a d _ => ?_⟩
      constructor
      · intro h
        obtain ⟨-, rfl⟩ := pure_eq_ok_iff.1 h
        exact ⟨a, rfl, rfl⟩
      · rintro ⟨a', hrun, rfl⟩
        obtain ⟨-, rfl⟩ := pure_eq_ok_iff.1 hrun
        rfl
  | cons line lines ih =>
      obtain ⟨orders, marks₁, hlabels, hsize, hordered⟩ := exists_ordered_put marks n line
      obtain ⟨orders', marks₂, hlabels', hsize', hordered'⟩ :=
        ih marks₁ (n + Order.handedAll orders)
      refine ⟨orders ++ orders', marks₂, hlabels.append hlabels', ?_, hordered.bind hordered'⟩
      rw [Order.sizeAll_append, hsize, hsize', Line.sizeAll_cons]

/-- The segment of lines at a base. -/
def Yields (lines : List Line) (base : UInt16) (segment : Segment) : Prop :=
  ∃ d, putLines lines { assembler := { base := base } } = .ok () d ∧ d.finish = .ok segment

/-- Lines are orders, whatever the base. -/
theorem exists_orders (lines : List Line) :
    ∃ orders, Order.LabelsOnly orders ∧ Order.sizeAll orders = Line.sizeAll lines ∧
      ∀ base segment, Yields lines base segment ↔ Order.assemble base orders = .ok segment := by
  obtain ⟨orders, marks, hlabels, hsize, hordered⟩ := exists_ordered_putLines [] 0 lines
  refine ⟨orders, hlabels, hsize, fun base segment => ?_⟩
  rw [Order.assemble_eq_ok_iff]
  constructor
  · rintro ⟨d, hlines, hfinish⟩
    obtain ⟨a, hrun, rfl⟩ := (hordered { base := base } d rfl).1 hlines
    exact ⟨a, hrun, finish_eq_ok_iff.1 hfinish⟩
  · rintro ⟨a, hrun, hfinish⟩
    exact ⟨⟨a, marks⟩, (hordered { base := base } _ rfl).2 ⟨a, hrun, rfl⟩,
      finish_eq_ok_iff.2 hfinish⟩

end Draft

end Cartridge
