/-
# `Cartridge.Proofs.Build.Correctness` — an image stores the values of its unit

The whole way from a unit to the memory that its image leaves behind:

    unit  ─ analysis →  typed unit  ─ tree →  flat tree  ─ code →  segments  ─ layout →  image

On this way every declaration keeps one meaning: its bytes are stored at the
address of its variable.  For the tree this is `runs_unit`, by induction on the
declarations, for startup code and main code at once; the machine then runs the
startup routine, jumps to the base of the bank, runs the main code and stays at
a jump to itself.

The machine has flat memory below $8000, where it may store, and sees the bank
of the image from its base on.
-/
import Cartridge.Proofs.Build.Placement
import Cartridge.Proofs.Build.Variables
import Cartridge.Proofs.ObjectCode.Straight

namespace Cartridge

/-! ## The code of a flat tree -/

/-- The code of startup blocks, numbered from `k` on. -/
def bootCode : Nat → List (String × List Instr) → Code
  | _, [] => []
  | k, boot :: boots => boot.2.map (k, ·) ++ bootCode (k + 1) boots

namespace BlockTree

variable {symbols : List Symbol} {main : List Instr}

theorem codeOf_mainBlocks {boots : List (String × List Instr)} :
    (flat symbols main boots).codeOf (Generator.mainBlocks (flat symbols main boots)) =
      main.map (0, ·) := by
  rw [mainBlocks_flat, codeOf, List.flatMap_singleton, instrs, block?_flat_zero]
  simp [rootBlock]

theorem codeOf_range' (front boots : List (String × List Instr)) :
    (flat symbols main (front ++ boots)).codeOf (List.range' (front.length + 1) boots.length) =
      bootCode (front.length + 1) boots := by
  induction boots generalizing front with
  | nil => rfl
  | cons boot boots ih =>
      have hblock : (flat symbols main (front ++ boot :: boots)).instrs (front.length + 1) =
          boot.2.toArray := by
        rw [instrs, block?_flat_succ, List.getElem?_append_right (Nat.le_refl _), Nat.sub_self]
        rfl
      have hrest := ih (front ++ [boot])
      rw [List.append_assoc, List.singleton_append, List.length_append, List.length_singleton]
        at hrest
      rw [List.length_cons, List.range'_succ, bootCode, codeOf, List.flatMap_cons, hblock]
      exact congrArg _ hrest

theorem codeOf_startupBlocks {boots : List (String × List Instr)} :
    (flat symbols main boots).codeOf (Generator.startupBlocks (flat symbols main boots)) =
      bootCode 1 boots := by
  rw [startupBlocks_flat]
  exact codeOf_range' [] boots

end BlockTree

/-! ## Units -/

section Unit

open Typing

variable {records : String → List Ty → Prop} {vars : List Variable} {names : Names}

/-- A declaration with storage extends the surroundings of the next one. -/
theorem Typing.Scope.bind {env : Env} (h : Scope records env vars) {name : String} {ty : Ty}
    {v : Variable} (hty : ty.Within records) (hv : Variable.find? vars name = some v)
    (hsize : ty.size = .ok v.size) : Scope records (env.bind name ty) vars :=
  ⟨h.unambiguous, Env.forall_bind h.within hty, Env.forall_bind h.stored ⟨v, hv, hsize⟩⟩

theorem isStartup_var {s : Slot} {name : String} {declared : Ty} {init : Option Node}
    {attrs : List Node} : (Node.var s name declared init attrs).isStartup =
      attrs.any (Node.isAttribute "startup") :=
  List.isSome_find?

/-- The code of one declaration stores its value. -/
theorem runs_decl (hseparate : Separate vars) {id : BlockId}
    (hlocated : ∀ name v, Variable.find? vars name = some v → names id name v.address) {env : Env}
    (hscope : Scope records env vars) {name : String} {declared ty : Ty} {init init' : Node}
    (hnew : env.contains name = false) (hfitted : Fitted env declared init init' ty)
    (hdeclared : declared.Within records) (hwritten : ∀ t ∈ init.written, t.Within records)
    {v : Variable} (hv : Variable.find? vars name = some v) (hsize : ty.size = .ok v.size)
    {code : List Instr} (hcode : init'.initCode { symbol := name } ty = .ok code)
    (s : Slot) (attrs : List Node) (m : Memory) :
    Code.Runs names (· < 0x8000) (code.map (id, ·)) m
      (Node.store vars m (.var s name declared (some init) attrs)) := by
  rw [Node.store, hv, Option.elim_some]
  exact hfitted.runs hscope (fun name v hv => hlocated name v hv.2) hdeclared hwritten hsize hcode
    ⟨v.address, hlocated name v hv, (add_ofNat_zero _).symm⟩ (hseparate.room hv hnew)

/-- Both programs of a unit store its values: the startup code those of the
startup declarations, the main code the others. -/
theorem runs_unit {n : Nat} (hseparate : Separate vars)
    (hlocated : ∀ id ≤ n, ∀ name v, Variable.find? vars name = some v → names id name v.address)
    {env env' : Env} {decls decls' : List Node} (haccepted : Accepted env decls decls' env')
    {symbols : List Symbol} {main : List Instr} {boots : List (String × List Instr)}
    (hlowered : BlockTree.Lowered decls' symbols main boots) (hscope : Scope records env vars)
    (hsymbols : ∀ symbol ∈ symbols, ∃ v, Variable.find? vars symbol.name = some v ∧
      symbol.ty.size = .ok v.size)
    (hwritten : ∀ t ∈ Node.writtenAll decls, t.Within records) :
    (∀ m, Code.Runs names (· < 0x8000) (main.map (0, ·)) m
      ((decls.filter fun node => !node.isStartup).foldl (Node.store vars) m)) ∧
    ∀ k m, k + boots.length ≤ n + 1 → Code.Runs names (· < 0x8000) (bootCode k boots) m
      ((decls.filter Node.isStartup).foldl (Node.store vars) m) := by
  induction haccepted generalizing symbols main boots with
  | nil =>
      cases hlowered
      exact ⟨fun m => .nil, fun k m _ => .nil⟩
  | @cons env mid env' node node' nodes nodes' hnode hnodes ih =>
      cases hnode with
      | @var s name declared ty init init' attrs attrs' hnew hattrs hinit =>
          have hany := any_isAttribute_of_checkAttributes hattrs "startup"
          obtain ⟨hdeclared, hinitWritten, hrest⟩ := Node.forall_writtenAll_var hwritten
          have hty := hinit.within hscope.within hdeclared hinitWritten
          cases hlowered with
          | plain hlowered =>
              obtain ⟨⟨v, hv, hsize⟩, hsymbols⟩ := List.forall_mem_cons.1 hsymbols
              obtain ⟨hmain, hboot⟩ := ih hlowered (hscope.bind hty hv hsize) hsymbols hrest
              cases hinit
              -- without a value nothing is stored, in whichever program
              rw [List.filter_cons, List.filter_cons]
              refine ⟨fun m => ?_, fun k m hk => ?_⟩
              · split
                · exact hmain m
                · exact hmain m
              · split
                · exact hboot k m hk
                · exact hboot k m hk
          | @main _ _ _ _ _ _ _ code _ main _ hnot hcode hlowered =>
              obtain ⟨⟨v, hv, hsize⟩, hsymbols⟩ := List.forall_mem_cons.1 hsymbols
              obtain ⟨hmain, hboot⟩ := ih hlowered (hscope.bind hty hv hsize) hsymbols hrest
              cases hinit with
              | present hfitted =>
                  rw [List.filter_cons, List.filter_cons, isStartup_var, ← hany, hnot]
                  refine ⟨fun m => ?_, hboot⟩
                  rw [List.map_append]
                  exact (runs_decl hseparate (hlocated 0 (Nat.zero_le n)) hscope hnew hfitted
                    hdeclared (hinitWritten _ rfl) hv hsize hcode s attrs m).append (hmain _)
          | @boot _ _ _ _ _ _ _ code _ _ boots hstartup hcode hlowered =>
              obtain ⟨⟨v, hv, hsize⟩, hsymbols⟩ := List.forall_mem_cons.1 hsymbols
              obtain ⟨hmain, hboot⟩ := ih hlowered (hscope.bind hty hv hsize) hsymbols hrest
              cases hinit with
              | present hfitted =>
                  rw [List.filter_cons, List.filter_cons, isStartup_var, ← hany, hstartup]
                  refine ⟨hmain, fun k m hk => ?_⟩
                  rw [List.length_cons] at hk
                  have hdecl := runs_decl hseparate (hlocated k (by omega)) hscope hnew hfitted
                    hdeclared (hinitWritten _ rfl) hv hsize hcode s attrs m
                  exact hdecl.append (hboot (k + 1) _ (by omega))

end Unit

/-! ## The machine -/

/-- Flat memory, of which the part below $8000 takes stores. -/
def Cpu.Bus.cartridge : Cpu.Bus where
  fetch m a := some (m a)
  writable a := a < 0x8000

/-- The memory with the bank of an image from `base` on. -/
def Rom.mapped (rom : Rom) (base : UInt16) (ram : Memory) : Memory := fun a =>
  if base ≤ a then (rom.prg[(a - base).toNat]?).getD (ram a) else ram a

/-- The bank of an image lies in memory from `base` on. -/
def Rom.LiesAt (rom : Rom) (base : UInt16) (m : Memory) : Prop :=
  ∀ (i : Nat) b, rom.prg[i]? = some b → m (base + UInt16.ofNat i) = b

theorem Board.le_base (board : Board) : 0x8000 ≤ board.base.toNat := by
  cases board <;> decide

namespace Rom

variable {rom : Rom} {board : Board}

theorem liesAt_mapped (hsize : rom.prg.size = board.size) (ram : Memory) :
    rom.LiesAt board.base (rom.mapped board.base ram) := by
  intro i b hb
  obtain ⟨hi, -⟩ := Array.getElem?_eq_some_iff.1 hb
  have hbase := board.base_add_size
  have haddress : (board.base + UInt16.ofNat i).toNat = board.base.toNat + i :=
    toNat_add_ofNat (by omega)
  have hle : board.base ≤ board.base + UInt16.ofNat i := by
    rw [UInt16.le_iff_toNat_le, haddress]
    exact Nat.le_add_right ..
  rw [mapped, if_pos hle, toNat_add_ofNat_sub (by omega), hb, Option.getD_some]

/-- Stores do not reach the bank. -/
theorem keeps_liesAt (hsize : rom.prg.size = board.size) :
    Cpu.Bus.cartridge.Keeps (rom.LiesAt board.base) := by
  intro m a b hm ha i c hc
  obtain ⟨hi, -⟩ := Array.getElem?_eq_some_iff.1 hc
  have hbase := board.base_add_size
  have hlow := board.le_base
  rw [Memory.set_other, hm i c hc]
  intro heq
  have hlt : a.toNat < 0x8000 := UInt16.lt_iff_toNat_lt.1 (of_decide_eq_true ha)
  rw [← heq, toNat_add_ofNat (by omega)] at hlt
  omega

/-- The bytes of the bank are what the machine fetches. -/
theorem LiesAt.shows {base : UInt16} {m : Memory} (hm : rom.LiesAt base m) {offset : Nat}
    {bytes : List UInt8} (h : (rom.prg.toList.drop offset).take bytes.length = bytes) :
    Cpu.Bus.cartridge.Shows m (base + UInt16.ofNat offset) bytes := by
  intro i hi
  have hbyte : ((rom.prg.toList.drop offset).take bytes.length)[i]? = bytes[i]? := by rw [h]
  rw [List.getElem?_take_of_lt hi, List.getElem?_drop, Array.getElem?_toList,
    List.getElem?_eq_getElem hi] at hbyte
  rw [List.getElem?_eq_getElem hi]
  show some (m _) = _
  rw [add_ofNat_add_ofNat, hm _ _ hbyte]

end Rom

/-- A jump whose encoding is fetched. -/
theorem Cpu.Bus.goes_jump {bus : Bus} {m : Memory} {a target : UInt16}
    (h : bus.Shows m a (Rom.jumpOpcode :: wordBytes target)) : bus.Goes 1 a m target m := by
  intro s hpc hs
  subst hpc hs
  have hencode : encode? .jmp (.absolute target) = some (Rom.jumpOpcode :: wordBytes target) := rfl
  exact ⟨_, run_one ((step_of_shows hencode h).trans rfl), rfl, rfl⟩

theorem Placed.exists_vectors {object : ObjectCode} {board : Board} {rom : Rom}
    (h : Placed object board rom) : ∃ vectors, rom.vectors = .ok vectors := by
  cases hempty : object.startup.isEmpty with
  | true =>
      obtain ⟨vectors, hvectors, -⟩ := h.plain hempty
      exact ⟨vectors, hvectors⟩
  | false =>
      obtain ⟨vectors, _, _, hvectors, -⟩ := h.routine hempty
      exact ⟨vectors, hvectors⟩

/-- From the reset vector the machine runs the startup code, then the main code,
and spins. -/
theorem Placed.runs {tree : BlockTree} {board : Board} {g g' : Generator} {object : ObjectCode}
    {rom : Rom} (hobject : Generator.objectCode tree board.base g = .ok object g')
    (hplaced : Placed object board rom) {vectors : Vectors} (hvectors : rom.vectors = .ok vectors)
    {m m₁ m₂ : Memory} (hm : rom.LiesAt board.base m)
    (hstartup : Code.Runs (tree.names g'.storage) (· < 0x8000)
      (tree.codeOf (Generator.startupBlocks tree)) m m₁)
    (hmain : Code.Runs (tree.names g'.storage) (· < 0x8000)
      (tree.codeOf (Generator.mainBlocks tree)) m₁ m₂) :
    ∃ k a, Cpu.Bus.cartridge.Goes k vectors.reset m a m₂ ∧
      ∀ s, s.pc = a → s.memory = m₂ → Cpu.Bus.cartridge.Spins s := by
  obtain ⟨handler, hmainSegment, hstartupSegment, -, -⟩ := Generator.objectCode_eq_ok hobject
  have hkeeps := Rom.keeps_liesAt hplaced.size
  have hwritable : ∀ a : UInt16, a < 0x8000 → Cpu.Bus.cartridge.writable a = true :=
    fun a ha => decide_eq_true ha
  have hmainShows : ∀ m, rom.LiesAt board.base m →
      Cpu.Bus.cartridge.Shows m board.base object.main.bytes.toList := by
    intro m hm
    have hshows : Cpu.Bus.cartridge.Shows m (board.base + UInt16.ofNat 0)
        object.main.bytes.toList :=
      hm.shows (by rw [List.drop_zero, Segment.length_bytes]; exact hplaced.main)
    rwa [add_ofNat_zero] at hshows
  cases hempty : object.startup.isEmpty with
  | true =>
      obtain ⟨vectors', hvectors', hreset⟩ := hplaced.plain hempty
      obtain rfl := Except.ok.inj (hvectors.symm.trans hvectors')
      rw [codeOf_startupBlocks_eq_nil hstartupSegment hempty hstartup.straight] at hstartup
      cases hstartup
      obtain ⟨k, a, hgoes, hspins⟩ :=
        mainSegment_runs hmainSegment hkeeps hmainShows hwritable hm hmain
      exact ⟨k, a, hreset ▸ hgoes, hspins⟩
  | false =>
      obtain ⟨vectors', offset, routine, hvectors', hreset, -, hfits, hmoved, hcode⟩ :=
        hplaced.routine hempty
      obtain rfl := Except.ok.inj (hvectors.symm.trans hvectors')
      have hplain := Generator.relocations_of_startupSegment hstartupSegment hstartup.straight
      rw [Segment.moveTo_of_plain hplain] at hmoved
      cases hmoved
      rw [← Rom.length_routineCode board.base (Segment.moveTo_of_plain hplain vectors.reset)]
        at hcode
      have hshows : ∀ m, rom.LiesAt board.base m → Cpu.Bus.cartridge.Shows m vectors.reset
          (object.startup.bytes.toList ++ Rom.jumpOpcode :: wordBytes board.base) := by
        intro m hm
        rw [hreset]
        exact hm.shows hcode
      have hbase := board.base_add_size
      have hend : vectors.reset.toNat + object.startup.size ≤ 0x10000 := by
        rw [Rom.routineSize] at hfits
        rw [hreset, toNat_add_ofNat (by omega)]
        omega
      obtain ⟨k, hgoes, hm₁⟩ := startupSegment_runs hstartupSegment hend hkeeps
        (fun m hm => (hshows m hm).left) hwritable hm hstartup
      have hjump := Cpu.Bus.goes_jump (hshows m₁ hm₁).right
      rw [Segment.length_bytes] at hjump
      obtain ⟨k', a, hgoes', hspins⟩ :=
        mainSegment_runs hmainSegment hkeeps hmainShows hwritable hm₁ hmain
      exact ⟨_, a, (hgoes.trans hjump).trans hgoes', hspins⟩

/-! ## Sessions -/

namespace Session

theorem foldl_noteTyped (typed : List (String × Ty)) (s : Session) :
    (typed.foldl noteTyped s).target = s.target ∧ (typed.foldl noteTyped s).decls = s.decls := by
  induction typed generalizing s with
  | nil => exact ⟨rfl, rfl⟩
  | cons t typed ih => exact ih (s.noteTyped t)

theorem analyze_eq_ok {s s' : Session} {env : Typing.Env} (h : analyze s = .ok env s') :
    (Typing.analyze s.decls).result = .ok env ∧ s'.target = s.target ∧
      s'.decls = (Typing.analyze s.decls).decls := by
  unfold analyze at h
  dsimp only at h
  cases hresult : (Typing.analyze s.decls).result with
  | error e =>
      rw [hresult] at h
      cases h
  | ok env' =>
      rw [hresult] at h
      cases h
      refine ⟨rfl, ?_⟩
      split
      · exact foldl_noteTyped _ _
      · exact ⟨rfl, rfl⟩

theorem building_eq_ok {α : Type} {x : Build α} {a : α} {s s' : Session}
    (h : building x s = .ok a s') : (∃ j, x s.journal = .ok a j) ∧ s'.target = s.target := by
  unfold building at h
  dsimp only at h
  cases hx : x s.journal with
  | error e j =>
      rw [hx] at h
      cases h
  | ok b j =>
      rw [hx] at h
      cases h
      refine ⟨⟨j, rfl⟩, ?_⟩
      split <;> rfl

theorem tree_eq_ok {s s' : Session} {t : BlockTree} (h : tree s = .ok t s') :
    ∃ env j j', (Typing.analyze s.decls).result = .ok env ∧
      BlockTree.ofDecls (Typing.analyze s.decls).decls j = .ok t j' ∧ s'.target = s.target := by
  obtain ⟨env, s₁, hanalyze, h₁⟩ := bind_eq_ok_iff.1 h
  obtain ⟨_, _, ⟨⟩, h₂⟩ := bind_eq_ok_iff.1 h₁
  obtain ⟨hresult, htarget, hdecls⟩ := analyze_eq_ok hanalyze
  obtain ⟨⟨j, hbuild⟩, htarget'⟩ := building_eq_ok h₂
  obtain ⟨t', j₁, hlift, h₃⟩ := bind_eq_ok_iff.1 hbuild
  obtain ⟨_, j₂, -, h₄⟩ := bind_eq_ok_iff.1 h₃
  obtain ⟨rfl, -⟩ := pure_eq_ok_iff.1 h₄
  have hofDecls := Build.lift_eq_ok hlift
  rw [hdecls] at hofDecls
  exact ⟨env, _, j₁, hresult, hofDecls, htarget'.trans htarget⟩

theorem image_eq_ok {s s' : Session} {rom : Rom} (h : image s = .ok rom s') :
    ∃ t s₁ j j', tree s = .ok t s₁ ∧ Build.image t s.target j = .ok rom j' := by
  obtain ⟨t, s₁, htree, h₁⟩ := bind_eq_ok_iff.1 h
  obtain ⟨_, _, ⟨⟩, h₂⟩ := bind_eq_ok_iff.1 h₁
  obtain ⟨_, _, _, -, -, htarget⟩ := tree_eq_ok htree
  obtain ⟨⟨j, hbuild⟩, -⟩ := building_eq_ok h₂
  rw [htarget] at hbuild
  exact ⟨t, s₁, _, j, htree, hbuild⟩

theorem exists_building {α : Type} {x : Build α} {a : α} {s : Session} {j : Journal}
    (h : x s.journal = .ok a j) : ∃ s', building x s = .ok a s' := by
  unfold building
  dsimp only
  rw [h]
  exact ⟨_, rfl⟩

/-- Where there is room, there is an image. -/
theorem exists_image {s s₁ : Session} {t : BlockTree} {object : ObjectCode} {j j' : Journal}
    (htree : tree s = .ok t s₁) (hobject : Build.objectCode t s.target j = .ok object j')
    (hroomy : Roomy object s.target.board) : ∃ rom s', image s = .ok rom s' := by
  obtain ⟨_, _, _, -, -, htarget⟩ := tree_eq_ok htree
  obtain ⟨g, hg⟩ := Build.objectCode_eq_ok hobject
  obtain ⟨j₁, hobject₁⟩ := Build.exists_objectCode hg s₁.journal
  obtain ⟨rom, j₂, hrom⟩ := Build.exists_image hobject₁ hroomy
  rw [← htarget] at hrom
  obtain ⟨s', hbuilding⟩ := exists_building hrom
  exact ⟨rom, s', bind_eq_ok_iff.2 ⟨t, s₁, htree, bind_eq_ok_iff.2 ⟨s₁, s₁, rfl, hbuilding⟩⟩⟩

/-- The variables of a session are those of its object code. -/
theorem variables_eq {s s₁ : Session} {t : BlockTree} {object : ObjectCode} {g : Generator}
    (htree : tree s = .ok t s₁)
    (hobject : Generator.objectCode t s.target.board.base {} = .ok object g) :
    s.variables = object.variables t := by
  obtain ⟨j, hbuild⟩ := Build.exists_objectCode hobject #[]
  rw [Session.variables, htree]
  dsimp only
  rw [hbuild]

end Session

/-! ## Correctness -/

theorem ObjectCode.exists_symbol {object : ObjectCode} {tree : BlockTree} {name : String}
    {v : Variable} (h : Variable.find? (object.variables tree) name = some v) :
    ∃ symbol ∈ tree.symbols 0, symbol.name = name := by
  obtain ⟨hmem, hname⟩ := Variable.mem_of_find? h
  obtain ⟨symbol, hsymbol, hv⟩ := List.mem_filterMap.1 hmem
  refine ⟨symbol, hsymbol, ?_⟩
  split at hv
  · cases hv
    exact hname
  · cases hv

/-- An environment without names asks no storage of the variables. -/
theorem Typing.Scope.empty {records : String → List Ty → Prop} (h : Ty.Unambiguous records)
    (vars : List Variable) : Scope records {} vars :=
  ⟨h, fun _ _ hx => (nomatch hx), fun _ _ hx => (nomatch hx)⟩

/-- The two programs of a tree that a unit was made into store its values. -/
theorem runs_tree {decls : List Node} {env : Typing.Env} {tree : BlockTree} {base : UInt16}
    {object : ObjectCode} {g g' : Generator} {j j' : Journal}
    (hanalyze : (Typing.analyze decls).result = .ok env)
    (htree : BlockTree.ofDecls (Typing.analyze decls).decls j = .ok tree j')
    (hobject : Generator.objectCode tree base g = .ok object g')
    (hconsistent : Node.Consistent decls) (hseparate : Separate (object.variables tree))
    (m : Memory) :
    ∃ m₁, Code.Runs (tree.names g'.storage) (· < 0x8000)
        (tree.codeOf (Generator.startupBlocks tree)) m m₁ ∧
      Code.Runs (tree.names g'.storage) (· < 0x8000) (tree.codeOf (Generator.mainBlocks tree)) m₁
        (Node.storeUnit (object.variables tree) decls m) := by
  obtain ⟨symbols, main, boots, hnames, rfl, hlowered⟩ := BlockTree.ofDecls_eq_ok htree
  have hroot : 0 ∈ (BlockTree.flat symbols main boots).preorder := by
    rw [BlockTree.wellFormed_flat.preorder_eq_range, BlockTree.size_flat]
    exact List.mem_range.2 (Nat.succ_pos _)
  have hvariable : ∀ symbol ∈ symbols, ∃ v,
      Variable.find? (object.variables (BlockTree.flat symbols main boots)) symbol.name = some v ∧
      symbol.ty.size = .ok v.size ∧ g'.storage.find? 0 symbol.name = some v.address :=
    fun _ hsymbol => exists_variable hobject hroot hnames hsymbol
  have hlocated : ∀ id ≤ boots.length, ∀ name v,
      Variable.find? (object.variables (BlockTree.flat symbols main boots)) name = some v →
      (BlockTree.flat symbols main boots).names g'.storage id name v.address := by
    intro id hid name v hv
    obtain ⟨symbol, hsymbol, rfl⟩ := ObjectCode.exists_symbol hv
    obtain ⟨v', hv', -, ha⟩ := hvariable symbol hsymbol
    obtain rfl := Option.some.inj (hv.symm.trans hv')
    exact BlockTree.names_flat hsymbol ha hid
  obtain ⟨hmain, hboot⟩ := runs_unit hseparate hlocated (Typing.accepted_of_analyze hanalyze)
    hlowered (.empty hconsistent.unambiguous _)
    (fun symbol hsymbol =>
      let ⟨v, hv, hsize, _⟩ := hvariable symbol hsymbol
      ⟨v, hv, hsize⟩)
    Node.within_records
  rw [BlockTree.codeOf_startupBlocks, BlockTree.codeOf_mainBlocks]
  exact ⟨_, hboot 1 m (Nat.le_of_eq (Nat.add_comm ..)), hmain _⟩

/-- An image stores the values of its unit: from the reset vector, whatever the
memory holds, the processor comes to a jump to itself, and then the values of
the startup declarations are stored, and after them those of the others. -/
theorem Session.image_stores_unit {s s' : Session} {rom : Rom} (hrom : image s = .ok rom s')
    (hconsistent : Node.Consistent s.decls) (hseparate : Separate s.variables) :
    ∃ vectors, rom.vectors = .ok vectors ∧ ∀ (ram : Memory) (st : Cpu.State),
      st.pc = vectors.reset → st.memory = rom.mapped s.target.board.base ram →
      ∃ k st', Cpu.Bus.cartridge.run k st = some st' ∧ Cpu.Bus.cartridge.Spins st' ∧
        st'.memory = Node.storeUnit s.variables s.decls st.memory := by
  obtain ⟨tree, s₁, j, j', htree, hbuild⟩ := image_eq_ok hrom
  obtain ⟨env, j₁, j₁', hanalyze, hdecls, -⟩ := tree_eq_ok htree
  obtain ⟨object, g, hobject, hplaced⟩ := placed_of_image hbuild
  rw [variables_eq htree hobject] at hseparate ⊢
  obtain ⟨vectors, hvectors⟩ := hplaced.exists_vectors
  refine ⟨vectors, hvectors, fun ram st hpc hm => ?_⟩
  have hlies := Rom.liesAt_mapped hplaced.size ram
  rw [← hm] at hlies
  obtain ⟨m₁, hstartup, hmain⟩ := runs_tree hanalyze hdecls hobject hconsistent hseparate st.memory
  obtain ⟨k, a, hgoes, hspins⟩ := hplaced.runs hobject hvectors hlies hstartup hmain
  obtain ⟨st', hrun, hpc', hm'⟩ := hgoes st hpc rfl
  exact ⟨k, st', hrun, hspins st' hpc' hm', hm'⟩

/-- A unit with all kinds of values, of which two are stored at startup. -/
def sampler : Session where
  decls := [
    .var {} "n" .byte (some (.literal {} 7)) [.attribute {} "zeropage" []],
    .var {} "w" .word (some (.ident {} "n")) [.attribute {} "startup" []],
    .var {} "p" (.ref .word) (some (.addressOf {} (.ident {} "w")))
      [.attribute {} "address" [.property {} "at" (.literal {} 0x700)]],
    .var {} "t" (.array .word 2) (some (.array {} [
      .cast { ty := .word } .explicit (.cast { ty := .byte } .explicit (.literal {} 0x1234)),
      .ident {} "w"])) [],
    .var {} "u" .unknown (some (.ident {} "t")) [],
    .var {} "r" (.record "pair" [.byte, .word]) none [],
    .var {} "q" (.record "pair" [.byte, .word]) (some (.ident {} "r")) [.attribute {} "startup" []]]

theorem image_stores_sampler :
    ∃ rom s', Session.image sampler = .ok rom s' ∧ Node.Consistent sampler.decls ∧
      Separate sampler.variables ∧
      ∃ vectors, rom.vectors = .ok vectors ∧ ∀ (ram : Memory) (st : Cpu.State),
        st.pc = vectors.reset → st.memory = rom.mapped 0x8000 ram →
        ∃ k st', Cpu.Bus.cartridge.run k st = some st' ∧ Cpu.Bus.cartridge.Spins st' ∧
          st'.memory = Node.storeUnit sampler.variables sampler.decls st.memory := by
  obtain ⟨t, s₁, htree, htest⟩ := exists_of_yields (show yields Session.tree sampler (fun t =>
    yields (Build.objectCode t {}) #[] fun object => decide (Roomy object .nrom256)) = true
    by decide +kernel)
  obtain ⟨object, j, hobject, hroomy⟩ := exists_of_yields htest
  obtain ⟨rom, s', hrom⟩ := Session.exists_image htree hobject (of_decide_eq_true hroomy)
  have hconsistent : Node.Consistent sampler.decls := by decide +kernel
  have hseparate : Separate sampler.variables := by decide +kernel
  exact ⟨rom, s', hrom, hconsistent, hseparate,
    Session.image_stores_unit hrom hconsistent hseparate⟩

end Cartridge
