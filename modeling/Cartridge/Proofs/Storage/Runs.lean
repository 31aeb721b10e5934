/-
# `Cartridge.Proofs.Storage.Runs` — storage over many runs

A generator keeps its storage from one run to the next, also from a run that
failed.  A run asks for the symbols of its blocks, in the order of the blocks
and then of the declarations (`roster`), and only then makes code:

    allocation     does to the storage of the generator what `allocateAll` does
                   to storage (`Mirrors`)
    code           leaves storage alone (`Spares`), and never fails for want of
                   storage (`NotStorage`)

So a run is a list of symbols, and many runs are many lists.

Proved here: storage is sound after any runs, and the next run continues it
row by row until the first symbol without room (`storage_after_runs`).  A symbol
without bytes needs no room, so it may lie where its region ends
(`storage_brimful`).
-/
import Cartridge.Proofs.BlockTree.Shape
import Cartridge.Proofs.Storage.Regions
import Cartridge.ObjectCode.Basic

namespace Cartridge

/-! ## Code fails for other reasons -/

/-- The reason to stop is not storage. -/
def NotStorage (s : Stop CodeError) : Prop := ∀ e, s ≠ .error (.storage e)

theorem notStorage_map_assembly (s : Stop AsmError) : NotStorage (s.map .assembly) := by
  intro e h
  cases s <;> cases h

namespace Site

theorem address_failsWithin (site : Site) (name : String) :
    FailsWithin NotStorage (site.address name) := by
  intro s h
  unfold address at h
  split at h
  · cases h
    intro e he
    cases he
  · next owner _ _ =>
      cases hfound : site.storage.find? owner name with
      | some a =>
          rw [hfound] at h
          cases h
      | none =>
          rw [hfound] at h
          cases h
          intro e he
          cases he

section

variable {site : Site} {reason : Stop CodeError → Prop}
  (haddress : ∀ name, FailsWithin reason (site.address name))

include haddress

theorem placeAddress_failsWithin (p : Place) : FailsWithin reason (site.placeAddress p) :=
  (haddress p.symbol).map _

theorem source_failsWithin (v : Value) : FailsWithin reason (site.source v) := by
  cases v with
  | immediate n => exact .ok _
  | place p => exact (placeAddress_failsWithin haddress p).map _
  | addressOf name => exact (haddress name).map _

/-- An instruction has no lines only if one of its names has no address. -/
theorem select_failsWithin (i : Instr) : FailsWithin reason (site.select i) := by
  have hplace := placeAddress_failsWithin haddress
  cases i with
  | copy dest src width =>
      exact .bind (hplace dest) fun _ => .bind (source_failsWithin haddress src) fun _ => .ok _
  | widen dest src => exact .bind (hplace dest) fun _ => .bind (hplace src) fun _ => .ok _
  | label l => exact .ok _
  | jump target => exact .ok _
  | branchZero src target => exact .bind (hplace src) fun _ => .ok _
  | branchNonzero src target => exact .bind (hplace src) fun _ => .ok _
  | halt => exact .ok _

end

end Site

namespace Draft

theorem assembling_stopsWithin {α : Type} (x : Asm α) : StopsWithin NotStorage (assembling x) := by
  intro d s d' h
  unfold assembling at h
  split at h
  · cases h
  · cases h
    exact notStorage_map_assembly _

theorem labelFor_stopsWithin (l : LabelId) : StopsWithin NotStorage (labelFor l) := by
  intro d s d' h
  unfold labelFor at h
  split at h
  · cases h
  · split at h
    · cases h
    · next hfresh =>
        cases h
        exact assembling_stopsWithin _ _ _ _ hfresh

theorem put_stopsWithin (line : Line) : StopsWithin NotStorage (put line) := by
  cases line with
  | op m o => exact assembling_stopsWithin _
  | mark l => exact .bind (labelFor_stopsWithin l) fun _ => assembling_stopsWithin _
  | jump l => exact .bind (labelFor_stopsWithin l) fun _ => assembling_stopsWithin _
  | branch m l => exact .bind (labelFor_stopsWithin l) fun _ => assembling_stopsWithin _
  | spin => exact assembling_stopsWithin _

theorem putLines_stopsWithin (lines : List Line) : StopsWithin NotStorage (putLines lines) := by
  induction lines with
  | nil => exact .pure ()
  | cons line lines ih => exact .bind (put_stopsWithin line) fun _ => ih

theorem putInstrs_stopsWithin (site : Site) (instrs : List Instr) :
    StopsWithin NotStorage (putInstrs site instrs) := by
  induction instrs with
  | nil => exact .pure ()
  | cons i instrs ih =>
      refine .bind ?_ fun lines => .bind (putLines_stopsWithin lines) fun _ => ih
      intro d s d' h
      split at h
      · cases h
      · next hselect =>
          cases h
          exact Site.select_failsWithin site.address_failsWithin i _ hselect

theorem putBlocks_stopsWithin (tree : BlockTree) (storage : Storage) (ids : List BlockId) :
    StopsWithin NotStorage (putBlocks tree storage ids) := by
  induction ids with
  | nil => exact .pure ()
  | cons id ids ih => exact .bind (putInstrs_stopsWithin _ _) fun _ => ih

/-- A draft fails to be finished for the reasons of its assembler. -/
theorem finish_failsWithin_of {reason : Stop CodeError → Prop} {d : Draft}
    (h : ∀ s, d.assembler.finish = .error s → reason (s.map .assembly)) :
    FailsWithin reason d.finish := by
  intro s hs
  unfold finish at hs
  split at hs
  · cases hs
  · next herror =>
      cases hs
      exact h _ herror

theorem finish_failsWithin (d : Draft) : FailsWithin NotStorage d.finish :=
  finish_failsWithin_of fun _ _ => notStorage_map_assembly _

end Draft

namespace Generator

theorem draftMain_stopsWithin (tree : BlockTree) (storage : Storage) :
    StopsWithin NotStorage (draftMain tree storage) := by
  refine .bind (Draft.putLines_stopsWithin _) fun _ => ?_
  refine .bind (Draft.putBlocks_stopsWithin _ _ _) fun _ => ?_
  refine .bind (Draft.put_stopsWithin _) fun _ => ?_
  refine .bind ?_ fun _ => .bind (Draft.put_stopsWithin _) fun _ => .pure _
  intro d s d' h
  cases h

/-- The main segment fails for the reasons of its draft, and of finishing that. -/
theorem mainSegment_failsWithin_of {reason : Stop CodeError → Prop} {tree : BlockTree}
    {storage : Storage} {base : UInt16}
    (hdraft : ∀ s d, draftMain tree storage { assembler := { base := base } } = .error s d →
      reason s)
    (hfinish : ∀ handler d, draftMain tree storage { assembler := { base := base } } =
      .ok handler d → FailsWithin reason d.finish) :
    FailsWithin reason (mainSegment tree storage base) := by
  intro s hs
  unfold mainSegment at hs
  split at hs
  · next herror =>
      cases hs
      exact hdraft s _ herror
  · next hd => exact (hfinish _ _ hd).map _ s hs

/-- The startup segment fails for the reasons of its draft, and of finishing that. -/
theorem startupSegment_failsWithin_of {reason : Stop CodeError → Prop} {tree : BlockTree}
    {storage : Storage}
    (hdraft : ∀ s d, Draft.putBlocks tree storage (startupBlocks tree)
      { assembler := { base := 0 } } = .error s d → reason s)
    (hfinish : ∀ d, Draft.putBlocks tree storage (startupBlocks tree)
      { assembler := { base := 0 } } = .ok () d → FailsWithin reason d.finish) :
    FailsWithin reason (startupSegment tree storage) := by
  intro s hs
  unfold startupSegment at hs
  split at hs
  · next herror =>
      cases hs
      exact hdraft s _ herror
  · next hd => exact hfinish _ hd s hs

theorem mainSegment_failsWithin (tree : BlockTree) (storage : Storage) (base : UInt16) :
    FailsWithin NotStorage (mainSegment tree storage base) :=
  mainSegment_failsWithin_of (fun _ _ hd => draftMain_stopsWithin tree storage _ _ _ hd)
    fun _ d _ => d.finish_failsWithin

theorem startupSegment_failsWithin (tree : BlockTree) (storage : Storage) :
    FailsWithin NotStorage (startupSegment tree storage) :=
  startupSegment_failsWithin_of (fun _ _ hd => Draft.putBlocks_stopsWithin tree storage _ _ _ _ hd)
    fun d _ => d.finish_failsWithin

theorem need_stopsWithin {α : Type} {reason : Stop CodeError → Prop}
    {x : Except (Stop CodeError) α} (hx : FailsWithin reason x) :
    StopsWithin reason (need x) := by
  intro g s g' h
  cases x with
  | ok a => cases h
  | error s' =>
      cases h
      exact hx s rfl

/-! ## Code leaves storage alone -/

/-- The generator that a step leaves behind, successful or not. -/
def left {α : Type} : EStateM.Result (Stop CodeError) Generator α → Generator
  | .ok _ g => g
  | .error _ g => g

/-- The step leaves storage as it is. -/
def Spares {α : Type} (x : Step α) : Prop := ∀ g, (left (x g)).storage = g.storage

theorem Spares.bind {α β : Type} {x : Step α} {f : α → Step β} (hx : Spares x)
    (hf : ∀ a, Spares (f a)) : Spares (x >>= f) := by
  intro g
  have hfirst := hx g
  show (left (EStateM.bind x f g)).storage = g.storage
  unfold EStateM.bind
  cases h : x g with
  | ok a g' =>
      rw [h] at hfirst
      exact (hf a g').trans hfirst
  | error s g' =>
      rw [h] at hfirst
      exact hfirst

theorem note_spares (event : Event) : Spares (note event) := fun _ => rfl

theorem need_spares {α : Type} (x : Except (Stop CodeError) α) : Spares (need x) := by
  intro g
  cases x <;> rfl

/-- Behind the allocations, a run makes code. -/
theorem objectCode_eq_bind (tree : BlockTree) (base : UInt16) :
    ∃ code : Step ObjectCode,
      objectCode tree base = (do allocateBlocks tree tree.preorder; code) ∧
      Spares code ∧ StopsWithin NotStorage code := by
  refine ⟨_, rfl, ?_, ?_⟩
  · refine .bind (fun _ => rfl) fun storage => ?_
    refine .bind (need_spares _) fun segment => ?_
    refine .bind (note_spares _) fun _ => ?_
    refine .bind (need_spares _) fun startup => ?_
    exact .bind (note_spares _) fun _ _ => rfl
  · refine .bind (fun _ _ _ h => by cases h) fun storage => ?_
    refine .bind (need_stopsWithin (mainSegment_failsWithin _ _ _)) fun segment => ?_
    refine .bind (fun _ _ _ h => by cases h) fun _ => ?_
    refine .bind (need_stopsWithin (startupSegment_failsWithin _ _)) fun startup => ?_
    exact .bind (fun _ _ _ h => by cases h) fun _ => .pure _

/-! ## Allocation -/

/-- The step does to the storage of a generator what `y` does to storage. -/
def Mirrors (x : Step Unit) (y : EStateM (Stop StorageError) Storage Unit) : Prop :=
  ∀ g, (∃ s j, y g.storage = .ok () s ∧ x g = .ok () ⟨s, j⟩) ∨
    ∃ e s j, y g.storage = .error e s ∧ x g = .error (e.map .storage) ⟨s, j⟩

theorem Mirrors.pure : Mirrors (pure ()) (pure ()) :=
  fun g => .inl ⟨g.storage, g.journal, rfl, rfl⟩

theorem Mirrors.bind {x x' : Step Unit} {y y' : EStateM (Stop StorageError) Storage Unit}
    (h : Mirrors x y) (h' : Mirrors x' y') : Mirrors (do x; x') (do y; y') := by
  intro g
  rcases h g with ⟨s, j, hy, hx⟩ | ⟨e, s, j, hy, hx⟩
  · rcases h' ⟨s, j⟩ with ⟨s', j', hy', hx'⟩ | ⟨e, s', j', hy', hx'⟩
    · exact .inl ⟨s', j', bind_eq_ok_iff.2 ⟨(), s, hy, hy'⟩, bind_eq_ok_iff.2 ⟨(), _, hx, hx'⟩⟩
    · exact .inr ⟨e, s', j', bind_eq_error_iff.2 (.inr ⟨(), s, hy, hy'⟩),
        bind_eq_error_iff.2 (.inr ⟨(), _, hx, hx'⟩)⟩
  · exact .inr ⟨e, s, j, bind_eq_error_iff.2 (.inl hy), bind_eq_error_iff.2 (.inl hx)⟩

theorem allocate_mirrors (owner : BlockId) (symbol : Symbol) :
    Mirrors (allocate owner symbol) (do let _ ← Storage.allocate owner symbol) := by
  intro g
  unfold allocate
  cases hrun : Storage.allocate owner symbol g.storage with
  | ok address s =>
      exact .inl ⟨s, _, bind_eq_ok_iff.2 ⟨address, s, hrun, rfl⟩, rfl⟩
  | error e s => exact .inr ⟨e, s, _, bind_eq_error_iff.2 (.inl hrun), rfl⟩

end Generator

/-- The symbols of a tree with their blocks, in the order of the blocks and then
of the declarations. -/
def BlockTree.roster (tree : BlockTree) (ids : List BlockId) : List (BlockId × Symbol) :=
  ids.flatMap fun id => (tree.symbols id).map fun symbol => (id, symbol)

theorem Storage.allocateAll_append (front back : List (BlockId × Symbol)) :
    allocateAll (front ++ back) = (do allocateAll front; allocateAll back) := by
  induction front with
  | nil => rfl
  | cons entry front ih =>
      obtain ⟨owner, symbol⟩ := entry
      simp only [List.cons_append, allocateAll, ih, bind_assoc]

namespace Generator

theorem allocateSymbols_mirrors (owner : BlockId) (symbols : List Symbol) :
    Mirrors (allocateSymbols owner symbols)
      (Storage.allocateAll (symbols.map fun symbol => (owner, symbol))) := by
  induction symbols with
  | nil => exact .pure
  | cons symbol symbols ih =>
      have h := (allocate_mirrors owner symbol).bind ih
      simp only [bind_assoc, pure_bind] at h
      exact h

theorem allocateBlocks_mirrors (tree : BlockTree) (ids : List BlockId) :
    Mirrors (allocateBlocks tree ids) (Storage.allocateAll (tree.roster ids)) := by
  induction ids with
  | nil => exact .pure
  | cons id ids ih =>
      rw [BlockTree.roster, List.flatMap_cons, Storage.allocateAll_append]
      exact (allocateSymbols_mirrors id (tree.symbols id)).bind ih

/-! ## Runs -/

/-- A run does to storage what its symbols do, and fails for want of storage if
they do. -/
theorem objectCode_cases (tree : BlockTree) (base : UInt16) (g : Generator) :
    (∃ s, Storage.allocateAll (tree.roster tree.preorder) g.storage = .ok () s ∧
      (left (objectCode tree base g)).storage = s ∧
      ∀ e g', objectCode tree base g ≠ .error (.error (.storage e)) g') ∨
    ∃ e s g', Storage.allocateAll (tree.roster tree.preorder) g.storage = .error e s ∧
      objectCode tree base g = .error (e.map .storage) g' ∧ g'.storage = s := by
  obtain ⟨code, hcode, hspares, hstops⟩ := objectCode_eq_bind tree base
  rw [hcode]
  rcases allocateBlocks_mirrors tree tree.preorder g with ⟨s, j, hall, hrun⟩ | ⟨e, s, j, hall, hrun⟩
  · refine .inl ⟨s, hall, ?_, fun e g' h => ?_⟩
    · show (left (EStateM.bind _ _ g)).storage = s
      unfold EStateM.bind
      rw [hrun]
      exact hspares ⟨s, j⟩
    · rcases bind_eq_error_iff.1 h with h | ⟨_, g₁, -, h⟩
      · rw [hrun] at h
        cases h
      · exact hstops _ _ _ h e rfl
  · exact .inr ⟨e, s, _, hall, bind_eq_error_iff.2 (.inl hrun), rfl⟩

/-- The generator after a run, successful or not. -/
def rerun (g : Generator) (run : BlockTree × UInt16) : Generator :=
  left (objectCode run.1 run.2 g)

/-- A new generator after any runs. -/
def after (runs : List (BlockTree × UInt16)) : Generator := runs.foldl rerun {}

/-- What one run does to storage. -/
theorem rerun_spec {g : Generator} (hs : g.storage.Sound) (run : BlockTree × UInt16) :
    (g.rerun run).storage.Sound ∧
    ∃ new, Storage.Allots (run.1.roster run.1.preorder) g.storage (g.rerun run).storage new ∧
      (new.map Allocation.entry = run.1.roster run.1.preorder ∨
        ∃ e, g.storage.FirstRefusal (run.1.roster run.1.preorder)
          (new.map Allocation.entry) e) := by
  obtain ⟨new, s, hsound, hallots, hend⟩ :=
    Storage.allocateAll_spec (run.1.roster run.1.preorder) hs
  have hstorage : (g.rerun run).storage = s := by
    rcases objectCode_cases run.1 run.2 g with ⟨s', hall, hleft, -⟩ | ⟨e, s', g', hall, hrun, rfl⟩
    · rcases hend with ⟨hend, -⟩ | ⟨e, hend, -⟩ <;> rw [hall] at hend <;> cases hend
      exact hleft
    · rcases hend with ⟨hend, -⟩ | ⟨e, hend, -⟩ <;> rw [hall] at hend <;> cases hend
      rw [rerun, hrun]
      rfl
  rw [hstorage]
  refine ⟨hsound, new, hallots, ?_⟩
  rcases hend with ⟨-, hall⟩ | ⟨e, -, hrefused⟩
  · exact .inl hall
  · exact .inr ⟨e, hrefused⟩

/-- Storage is sound after any runs. -/
theorem sound_foldl_rerun (runs : List (BlockTree × UInt16)) {g : Generator}
    (hs : g.storage.Sound) : (runs.foldl rerun g).storage.Sound := by
  induction runs generalizing g with
  | nil => exact hs
  | cons run runs ih => exact ih (rerun_spec hs run).1

theorem sound_after (runs : List (BlockTree × UInt16)) : (after runs).storage.Sound :=
  sound_foldl_rerun runs Storage.sound_empty

/-- A run stops at the first symbol that is refused, and for its reason. -/
theorem objectCode_of_firstRefusal {g : Generator} {tree : BlockTree}
    {before : List (BlockId × Symbol)} {e : Stop StorageError}
    (h : g.storage.FirstRefusal (tree.roster tree.preorder) before e) (base : UInt16) :
    ∃ g', objectCode tree base g = .error (e.map .storage) g' := by
  obtain ⟨s', hrefused⟩ := Storage.allocateAll_of_firstRefusal h
  rcases objectCode_cases tree base g with ⟨s, hall, -, -⟩ | ⟨e', s, g', hall, hrun, -⟩
  · cases hall.symm.trans hrefused
  · cases hall.symm.trans hrefused
    exact ⟨g', hrun⟩

/-- A run fails for want of storage if and only if a symbol is refused, and for
the reason of the first such symbol. -/
theorem objectCode_storage_iff (g : Generator) (tree : BlockTree) (base : UInt16)
    (e : StorageError) :
    (∃ g', objectCode tree base g = .error (.error (.storage e)) g') ↔
      ∃ before, g.storage.FirstRefusal (tree.roster tree.preorder) before (.error e) := by
  refine ⟨fun ⟨g', h⟩ => ?_, fun ⟨before, h⟩ => objectCode_of_firstRefusal h base⟩
  rw [← Storage.allocateAll_error_iff]
  rcases objectCode_cases tree base g with ⟨s, -, -, hother⟩ | ⟨e', s, g₁, hall, hrun, -⟩
  · exact absurd h (hother e g')
  · cases e' with
    | error e' =>
        cases hrun.symm.trans h
        exact ⟨s, hall⟩
    | fault f => cases hrun.symm.trans h

/-- After any runs of code generation, successful or not: every allocation lies
where its placement wants it, no two share a byte unless one of them chose its
address, and those of a region fill it from its start up to its counter.  The
next run gives addresses to the symbols of its blocks in
order, in each region one behind the other from where earlier runs stopped,
until the first symbol without a size or without room.  Such a symbol stops the run
for its reason, and nothing else makes a run fail for want of storage.  The reason is
an error, unless the type of the symbol overflows. -/
theorem storage_after_runs (runs : List (BlockTree × UInt16)) (tree : BlockTree) (base : UInt16) :
    (∀ a ∈ (after runs).storage.allocations, a.Lies) ∧
    (after runs).storage.allocations.Pairwise Allocation.Apart ∧
    (∀ p, p.isFixed = false →
      Row p.start ((after runs).storage.history p) ((after runs).storage.next p)) ∧
    (∃ new, Storage.Allots (tree.roster tree.preorder) (after runs).storage
        (after (runs ++ [(tree, base)])).storage new ∧
      (new.map Allocation.entry = tree.roster tree.preorder ∨
        ∃ e, (after runs).storage.FirstRefusal (tree.roster tree.preorder)
          (new.map Allocation.entry) e)) ∧
    (∀ before e, (after runs).storage.FirstRefusal (tree.roster tree.preorder) before e →
      ∃ g, objectCode tree base (after runs) = .error (e.map .storage) g) ∧
    (∀ e, (∃ g, objectCode tree base (after runs) = .error (.error (.storage e)) g) ↔
      ∃ before, (after runs).storage.FirstRefusal (tree.roster tree.preorder) before (.error e)) ∧
    ∀ before f, (after runs).storage.FirstRefusal (tree.roster tree.preorder) before (.fault f) →
      f = .overflow ∧ ∃ entry ∈ tree.roster tree.preorder, entry.2.ty.Overflows := by
  have hs := sound_after runs
  have hnext : after (runs ++ [(tree, base)]) = (after runs).rerun (tree, base) := by
    rw [after, List.foldl_append]
    rfl
  rw [hnext]
  exact ⟨fun a ha => hs.lies ha, hs.apart, hs.row, (rerun_spec hs (tree, base)).2,
    fun before e h => objectCode_of_firstRefusal h base, objectCode_storage_iff _ tree base,
    fun before f h => h.overflows⟩

/-- An array that fills the zero page to its last byte, and a word in another
block: a second run is refused at the array and asks no further. -/
example :
    let tree := BlockTree.build
      [.declare { name := "n", ty := .array .byte 240, placement := .zeroPage },
        .enter "inner" .scope, .declare { name := "n", ty := .word }]
    (after [(tree, 0x8000), (tree, 0x8000)]).storage.allocations.map Allocation.address =
      [0x0300, 0x0010] := by
  decide +kernel

/-- A zero page that is full, and a symbol without bytes behind it. -/
def brimful : BlockTree :=
  BlockTree.build
    [.declare { name := "n", ty := .array .byte 240, placement := .zeroPage },
      .declare { name := "e", ty := .array .byte 0, placement := .zeroPage }]

/-- More words than a length can count bytes of. -/
def unmeasured : BlockTree :=
  BlockTree.build [.declare { name := "x", ty := .array .word 0x8000000000000000 }]

/-- The symbol without bytes lies outside the zero page, at the first address of the
stack.  A symbol whose size cannot be computed ends a run without an error. -/
theorem storage_brimful :
    (∃ a ∈ (after [(brimful, 0x8000)]).storage.allocations, a.symbol.placement = .zeroPage ∧
      a.address = 0x0100 ∧ a.size = 0) ∧
    ∃ g, objectCode unmeasured 0x8000 (after [(brimful, 0x8000)]) =
      .error (.fault .overflow) g := by
  constructor
  · decide +kernel
  · obtain ⟨stop, g, hstopped, hstop⟩ := exists_of_stops (show stops
      (objectCode unmeasured 0x8000) (after [(brimful, 0x8000)])
        (fun stop => stop == .fault .overflow) = true by decide +kernel)
    exact ⟨g, eq_of_beq hstop ▸ hstopped⟩

end Generator

end Cartridge
