/-
# `Cartridge.Proofs.BlockTree.Reading` — what messages and listings tell

A type is shown in three places.  By its name:

    message    expected t, found t        cannot unify t with t
    listing    symbol s: t @placement

In a message a name ends at a comma or a blank, and so it does in a listing.  A
listing is told apart line by line:

    heading      block …      begins a block
    symbol       symbol …     stands before all instructions of its block
    instruction  anything else

Names of blocks and variables may hold whatever they like, as long as it is one
line; what stands behind the last colon of a symbol is its type and its place.

Proved here: all three show types up to hoisting and no more than that
(`shown_up_to_hoist`).  They do not tell the address of an array from an array of
addresses (`address_of_array_misread`).
-/
import Cartridge.Proofs.BlockTree.Traversal
import Cartridge.Proofs.Ty.Names
import Cartridge.Typing.Analysis

namespace Cartridge

/-! ## Messages -/

namespace Ty

/-- Two names with a separator between them tell both types up to hoisting. -/
theorem pair_text_iff {a b c d : Ty} (ha : a.WellNamed) (hb : b.WellNamed) (hc : c.WellNamed)
    (hd : d.WellNamed) {separator : Char} (hsep : separator ∈ [' ', ',']) (front rest : List Char) :
    front ++ (a.text ++ separator :: (rest ++ b.text)) =
        front ++ (c.text ++ separator :: (rest ++ d.text)) ↔
      a.hoist = c.hoist ∧ b.hoist = d.hoist := by
  constructor
  · intro h
    obtain ⟨hfirst, htail⟩ := hoist_of_text ha hc (closes_cons hsep _) (closes_cons hsep _)
      (List.append_cancel_left h)
    have hsecond := List.append_cancel_left (List.cons.inj htail).2
    refine ⟨hfirst, (render_eq_iff hb hd).1 (String.toList_inj.1 hsecond)⟩
  · rintro ⟨hfirst, hsecond⟩
    rw [text, text, text, text, render_of_hoist hfirst, render_of_hoist hsecond]

end Ty

theorem TypeError.toList_mismatch (a b : Ty) : (TypeError.mismatch a b).message.toList =
    "expected ".toList ++ (a.text ++ ',' :: (" found ".toList ++ b.text)) := by
  have hmessage : (mismatch a b).message = "expected " ++ a.render ++ ", found " ++ b.render := rfl
  rw [hmessage, String.toList_append, String.toList_append, String.toList_append,
    List.append_assoc, List.append_assoc]
  rfl

theorem TypeError.toList_cannotUnify (a b : Ty) : (TypeError.cannotUnify a b).message.toList =
    "cannot unify ".toList ++ (a.text ++ ' ' :: ("with ".toList ++ b.text)) := by
  have hmessage : (cannotUnify a b).message = "cannot unify " ++ a.render ++ " with " ++ b.render :=
    rfl
  rw [hmessage, String.toList_append, String.toList_append, String.toList_append,
    List.append_assoc, List.append_assoc]
  rfl

/-! ## What breaks a line -/

/-- No line ends in the text, and no colon stands in it. -/
def Unbroken (l : List Char) : Prop := ':' ∉ l ∧ '\n' ∉ l

@[simp] theorem unbroken_nil : Unbroken [] :=
  ⟨List.not_mem_nil, List.not_mem_nil⟩

@[simp] theorem unbroken_cons {c : Char} {l : List Char} :
    Unbroken (c :: l) ↔ (c ≠ ':' ∧ c ≠ '\n') ∧ Unbroken l := by
  simp only [Unbroken, List.mem_cons, not_or, eq_comm, ne_eq]
  exact and_and_and_comm

@[simp] theorem unbroken_append {l l' : List Char} :
    Unbroken (l ++ l') ↔ Unbroken l ∧ Unbroken l' := by
  simp only [Unbroken, List.mem_append, not_or]
  exact and_and_and_comm

theorem unbroken_of_all {p : Char → Bool} {l : List Char} (hcolon : p ':' = false)
    (hend : p '\n' = false) (hl : ∀ c ∈ l, p c = true) : Unbroken l := by
  constructor
  · intro hmem
    cases hcolon.symm.trans (hl _ hmem)
  · intro hmem
    cases hend.symm.trans (hl _ hmem)

@[simp] theorem unbroken_digits (n : Nat) : Unbroken (Nat.toDigits 10 n) :=
  @unbroken_of_all Char.isDigit _ rfl rfl fun _ hc =>
    Nat.isDigit_of_mem_toDigits (by decide) (by decide) hc

theorem exists_digit_of_mem_toDigits {base n : Nat} (hbase : 1 < base) {c : Char}
    (h : c ∈ Nat.toDigits base n) : ∃ d < base, c = Nat.digitChar d := by
  induction n using Nat.strongRecOn with
  | ind n ih =>
      rw [Nat.toDigits_eq_if hbase] at h
      split at h
      · next hlt => exact ⟨n, hlt, List.mem_singleton.1 h⟩
      · next hge =>
          rcases List.mem_append.1 h with hhigh | hlow
          · exact ih (n / base) (Nat.div_lt_self (by omega) hbase) hhigh
          · exact ⟨n % base, Nat.mod_lt n (by omega), List.mem_singleton.1 hlow⟩

theorem unbroken_hex (n : Nat) : Unbroken (hex n).toList := by
  refine @unbroken_of_all Char.isAlphanum _ rfl rfl fun c hc => ?_
  rw [hex, String.toList_ofList] at hc
  obtain ⟨digit, hdigit, rfl⟩ := List.mem_map.1 hc
  obtain ⟨d, hd, rfl⟩ := exists_digit_of_mem_toDigits (by decide) hdigit
  have hall : ∀ d < 16, (Nat.digitChar d).toUpper.isAlphanum = true := by decide
  exact hall d hd

theorem Placement.unbroken_render (p : Placement) : Unbroken p.render.toList := by
  cases p with
  | auto | zeroPage => simp [render]
  | fixed address =>
      have hzeros : ∀ k, Unbroken (List.replicate k '0') := by
        intro k
        refine @unbroken_of_all Char.isDigit _ rfl rfl fun c hc => ?_
        rw [List.eq_of_mem_replicate hc]
        rfl
      simp [render, showAddress, hex4, hzeros, unbroken_hex]

theorem Identifier.unbroken {name : String} (h : Identifier name) : Unbroken name.toList :=
  unbroken_of_all rfl rfl h.plain

namespace Ty

mutual

/-- A name stands on one line, and there is no colon in it. -/
theorem unbroken_text : ∀ {ty : Ty}, ty.WellNamed → Unbroken ty.text
  | .unknown, _ | .byte, _ | .word, _ => by simp [text, render]
  | .named name, h => by
      have hname := (h name List.mem_cons_self).unbroken
      simpa [text, render] using hname
  | .array e n, h => by
      have he := @unbroken_text e h
      simp [text_array, he]
  | .ref e, h => by
      have he := @unbroken_text e h
      simp [text_ref, he]
  | .record name members, h => by
      obtain ⟨hname, hmembers⟩ := wellNamed_of_record h
      simp [text_record, hname.unbroken, unbroken_body hmembers]

theorem unbroken_body : ∀ {ms : List Ty}, (∀ name ∈ namesAll ms, Identifier name) →
    Unbroken (body ms)
  | [], _ => by simp [body, renderMembers]
  | m :: ms, h => by
      have hm := unbroken_text (wellNamed_of_cons h).1
      have hms := unbroken_body (wellNamed_of_cons h).2
      cases ms with
      | nil => simp [body_cons, further, hm]
      | cons m' ms => simp [body_cons m, further, hm, hms]

end

end Ty

/-! ## Lines of a listing -/

/-- The names in a value. -/
def Value.names : Value → List String
  | .immediate _ => []
  | .place p => [p.symbol]
  | .addressOf name => [name]

/-- The names in an instruction. -/
def Instr.names : Instr → List String
  | .copy dest src _ => dest.symbol :: src.names
  | .widen dest src => [dest.symbol, src.symbol]
  | .branchZero src _ | .branchNonzero src _ => [src.symbol]
  | .label _ | .jump _ | .halt => []

/-- All names of a block are one line each, and the types of its symbols have
identifiers for names. -/
structure Block.Legible (b : Block) : Prop where
  name : '\n' ∉ b.name.toList
  symbols : ∀ s ∈ b.symbols, '\n' ∉ s.name.toList ∧ s.ty.WellNamed
  instrs : ∀ i ∈ b.instrs, ∀ name ∈ i.names, '\n' ∉ name.toList

@[simp] theorem not_mem_digits (n : Nat) : '\n' ∉ Nat.toDigits 10 n := (unbroken_digits n).2

theorem Place.one_line {p : Place} (h : '\n' ∉ p.symbol.toList) : '\n' ∉ p.render.toList := by
  rw [render]
  split
  · exact h
  · simp [toString, h, Nat.toList_repr]

theorem Value.one_line {v : Value} (h : ∀ name ∈ v.names, '\n' ∉ name.toList) :
    '\n' ∉ v.render.toList := by
  cases v with
  | immediate n => simp [render, toString, Nat.toList_repr]
  | place p => exact Place.one_line (h p.symbol List.mem_cons_self)
  | addressOf name =>
      have hname := h name List.mem_cons_self
      simp [render, toString, hname]

theorem Instr.one_line {i : Instr} (h : ∀ name ∈ i.names, '\n' ∉ name.toList) :
    '\n' ∉ i.render.toList := by
  cases i with
  | copy dest src width =>
      have hdest := Place.one_line (h dest.symbol List.mem_cons_self)
      have hsrc := Value.one_line fun name hname => h name (List.mem_cons_of_mem _ hname)
      cases width <;> simp [render, toString, Width.letter, hdest, hsrc]
  | widen dest src =>
      have hdest := Place.one_line (h dest.symbol List.mem_cons_self)
      have hsrc := Place.one_line (h src.symbol (List.mem_cons_of_mem _ List.mem_cons_self))
      simp [render, toString, hdest, hsrc]
  | branchZero src target | branchNonzero src target =>
      have hsrc := Place.one_line (h src.symbol List.mem_cons_self)
      simp [render, showLabel, toString, hsrc, Nat.toList_repr]
  | label l | jump l => simp [render, showLabel, toString, Nat.toList_repr]
  | halt => simp [render]

theorem Symbol.toList_render (s : Symbol) : s.render.toList =
    ("symbol ".toList ++ s.name.toList) ++ ':' :: (' ' :: (s.ty.text ++ s.placement.render.toList)) := by
  simp [render, toString, Ty.text]

theorem Symbol.one_line {s : Symbol} (hname : '\n' ∉ s.name.toList) (hty : s.ty.WellNamed) :
    '\n' ∉ s.render.toList := by
  have htext := (Ty.unbroken_text hty).2
  have hplace := s.placement.unbroken_render.2
  simp [toList_render, hname, htext, hplace]

theorem Placement.closes_render (p : Placement) : Closes p.render.toList := by
  cases p with
  | auto => exact closes_nil
  | zeroPage => exact closes_cons (by decide) _
  | fixed address =>
      rw [render, String.toList_append]
      exact closes_cons (by decide) _

/-- What a listing tells of a symbol. -/
def Symbol.shown (s : Symbol) : String × Ty := (s.name, s.ty.hoist)

/-- The line of a symbol tells its name, and its type up to hoisting. -/
theorem Symbol.shown_of_render {s s' : Symbol} (h : s.ty.WellNamed) (h' : s'.ty.WellNamed)
    (hrender : s.render = s'.render) : s.shown = s'.shown := by
  have hbehind : ∀ {s : Symbol}, s.ty.WellNamed →
      ':' ∉ ' ' :: (s.ty.text ++ s.placement.render.toList) := by
    intro s hs
    have htext := (Ty.unbroken_text hs).1
    have hplace := s.placement.unbroken_render.1
    simp [htext, hplace]
  have htexts := congrArg String.toList hrender
  rw [toList_render, toList_render] at htexts
  obtain ⟨hname, htail⟩ := Text.last_unique (hbehind h) (hbehind h') htexts
  obtain ⟨hty, -⟩ := Ty.hoist_of_text h h' s.placement.closes_render s'.placement.closes_render
    (List.cons.inj htail).2
  rw [shown, shown, String.toList_inj.1 (List.append_cancel_left hname), hty]

namespace BlockTree

/-- The first line of a block. -/
def heading (b : Block) : String := "block " ++ b.name ++ " (" ++ b.kind.name ++ ")"

/-- The lines of a block without its children. -/
def headLines (depth : Nat) (b : Block) : List (List Char) :=
  (indent depth ++ heading b).toList ::
    (b.symbols.map (fun s => (indent (depth + 1) ++ s.render).toList) ++
      b.instrs.toList.map (fun i => (indent (depth + 1) ++ i.render).toList))

theorem toList_renderHead (depth : Nat) (b : Block) :
    (renderHead depth b).toList = Text.ofLines (headLines depth b) := by
  have hrender : renderHead depth b = indent depth ++ ("block " ++ b.name ++ " (" ++ b.kind.name ++
      ")\n") ++ String.join (b.symbols.map fun s => indent (depth + 1) ++ s.render ++ "\n") ++
      String.join (b.instrs.toList.map fun i => indent (depth + 1) ++ i.render ++ "\n") := rfl
  have hheading : (")\n" : String).toList = ")".toList ++ ['\n'] := rfl
  simp only [hrender, headLines, heading, Text.ofLines, String.toList_append, String.toList_join,
    List.flatMap_map, List.flatMap_cons, List.flatMap_append, List.append_assoc, hheading]
  rfl

/-- What follows the blanks at the beginning of a line. -/
def stripped (line : List Char) : List Char := line.dropWhile (· == ' ')

/-- Is this the first line of a block? -/
def isHeading (line : List Char) : Bool := "block ".toList.isPrefixOf (stripped line)

/-- Is this the line of a symbol? -/
def isSymbol (line : List Char) : Bool := "symbol ".toList.isPrefixOf (stripped line)

theorem eq_blank_of_mem_indent {depth : Nat} {c : Char} (h : c ∈ (indent depth).toList) : c = ' ' := by
  have hblanks : ∀ c ∈ "  ".toList, c = ' ' := by simp
  rw [indent, String.toList_join] at h
  obtain ⟨blanks, hreplicate, hmem⟩ := List.mem_flatMap.1 h
  rw [List.eq_of_mem_replicate hreplicate] at hmem
  exact hblanks c hmem

theorem stripped_indent (depth : Nat) {text : String} (h : Text.Stops (· == ' ') text.toList) :
    stripped (indent depth ++ text).toList = text.toList := by
  rw [stripped, String.toList_append]
  exact Text.dropWhile_of_stops (fun c hc => beq_iff_eq.2 (eq_blank_of_mem_indent hc)) h

theorem one_line_indent (depth : Nat) {text : String} (h : '\n' ∉ text.toList) :
    '\n' ∉ (indent depth ++ text).toList := by
  rw [String.toList_append, List.mem_append]
  rintro (hblank | htext)
  · exact absurd (eq_blank_of_mem_indent hblank) (by decide)
  · exact h htext

theorem isHeading_heading (depth : Nat) (b : Block) :
    isHeading (indent depth ++ heading b).toList = true := by
  have htext : (heading b).toList = "block ".toList ++
      (b.name.toList ++ (" (".toList ++ (b.kind.name.toList ++ ")".toList))) := by
    simp only [heading, String.toList_append, List.append_assoc]
  have hstops : Text.Stops (· == ' ') (heading b).toList := by
    rw [htext]
    exact Text.stops_cons rfl _
  rw [isHeading, stripped_indent depth hstops, htext]
  exact List.isPrefixOf_iff_prefix.2 (List.prefix_append _ _)

theorem stripped_symbol (depth : Nat) (s : Symbol) :
    stripped (indent depth ++ s.render).toList = s.render.toList := by
  refine stripped_indent depth ?_
  rw [s.toList_render]
  exact Text.stops_cons rfl _

theorem kind_of_symbol (depth : Nat) (s : Symbol) :
    isHeading (indent depth ++ s.render).toList = false ∧
      isSymbol (indent depth ++ s.render).toList = true := by
  rw [isHeading, isSymbol, stripped_symbol, s.toList_render, List.append_assoc]
  exact ⟨rfl, List.isPrefixOf_iff_prefix.2 (List.prefix_append _ _)⟩

/-- The words that instructions begin with. -/
def operations : List String := ["copy.", "widen ", "L", "jump ", "bz ", "bnz ", "halt"]

theorem exists_operation (i : Instr) : ∃ word ∈ operations, ∃ rest, i.render = word ++ rest := by
  cases i with
  | copy dest src width =>
      refine ⟨"copy.", by decide, width.letter ++ " " ++ dest.render ++ ", " ++ src.render, ?_⟩
      simp only [← String.append_assoc]
      rfl
  | widen dest src =>
      refine ⟨"widen ", by decide, dest.render ++ ", " ++ src.render, ?_⟩
      simp only [← String.append_assoc]
      rfl
  | label l =>
      refine ⟨"L", by decide, toString l ++ ":", ?_⟩
      rw [← String.append_assoc]
      rfl
  | jump target => exact ⟨"jump ", by decide, showLabel target, rfl⟩
  | branchZero src target =>
      refine ⟨"bz ", by decide, src.render ++ ", " ++ showLabel target, ?_⟩
      simp only [← String.append_assoc]
      rfl
  | branchNonzero src target =>
      refine ⟨"bnz ", by decide, src.render ++ ", " ++ showLabel target, ?_⟩
      simp only [← String.append_assoc]
      rfl
  | halt => exact ⟨"halt", by decide, "", rfl⟩

theorem kind_of_instr (depth : Nat) (i : Instr) :
    isHeading (indent depth ++ i.render).toList = false ∧
      isSymbol (indent depth ++ i.render).toList = false := by
  have hwords : ∀ word ∈ operations, ∀ rest, Text.Stops (· == ' ') (word.toList ++ rest) ∧
      "block ".toList.isPrefixOf (word.toList ++ rest) = false ∧
      "symbol ".toList.isPrefixOf (word.toList ++ rest) = false := by
    simp [operations, Text.Stops, List.isPrefixOf]
  obtain ⟨word, hword, rest, hrender⟩ := exists_operation i
  obtain ⟨hstops, hheading, hsymbol⟩ := hwords word hword rest.toList
  rw [← String.toList_append, ← hrender] at hstops hheading hsymbol
  rw [isHeading, isSymbol, stripped_indent depth hstops]
  exact ⟨hheading, hsymbol⟩

/-! ## Blocks -/

theorem isGroup_headLines (depth : Nat) (b : Block) : Text.IsGroup isHeading (headLines depth b) := by
  refine ⟨_, _, rfl, isHeading_heading depth b, fun line hline => ?_⟩
  rcases List.mem_append.1 hline with hsymbol | hinstr
  · obtain ⟨s, -, rfl⟩ := List.mem_map.1 hsymbol
    exact (kind_of_symbol _ s).1
  · obtain ⟨i, -, rfl⟩ := List.mem_map.1 hinstr
    exact (kind_of_instr _ i).1

theorem one_line_headLines {b : Block} (h : b.Legible) (depth : Nat) :
    ∀ line ∈ headLines depth b, '\n' ∉ line := by
  intro line hline
  rcases List.mem_cons.1 hline with rfl | hline
  · refine one_line_indent depth ?_
    have hname := h.name
    cases hkind : b.kind <;> simp [heading, hname, hkind, BlockKind.name]
  · rcases List.mem_append.1 hline with hsymbol | hinstr
    · obtain ⟨s, hs, rfl⟩ := List.mem_map.1 hsymbol
      exact one_line_indent _ (Symbol.one_line (h.symbols s hs).1 (h.symbols s hs).2)
    · obtain ⟨i, hi, rfl⟩ := List.mem_map.1 hinstr
      exact one_line_indent _ (Instr.one_line (h.instrs i (Array.mem_toList_iff.1 hi)))

theorem map_shown_of_lines {depth depth' : Nat} : ∀ {symbols symbols' : List Symbol},
    (∀ s ∈ symbols, s.ty.WellNamed) → (∀ s ∈ symbols', s.ty.WellNamed) →
    symbols.map (fun s => (indent depth ++ s.render).toList) =
      symbols'.map (fun s => (indent depth' ++ s.render).toList) →
    symbols.map Symbol.shown = symbols'.map Symbol.shown
  | [], [], _, _, _ => rfl
  | [], s' :: symbols', _, _, h => by cases h
  | s :: symbols, [], _, _, h => by cases h
  | s :: symbols, s' :: symbols', hs, hs', h => by
      obtain ⟨hline, hlines⟩ := List.cons.inj h
      have hrender := congrArg stripped hline
      rw [stripped_symbol, stripped_symbol] at hrender
      rw [List.map_cons, List.map_cons, Symbol.shown_of_render (hs s List.mem_cons_self)
        (hs' s' List.mem_cons_self) (String.toList_inj.1 hrender),
        map_shown_of_lines (fun s hmem => hs s (List.mem_cons_of_mem _ hmem))
          (fun s hmem => hs' s (List.mem_cons_of_mem _ hmem)) hlines]

/-- The lines of a block tell its symbols. -/
theorem shown_of_headLines {depth depth' : Nat} {b b' : Block} (hb : b.Legible) (hb' : b'.Legible)
    (h : headLines depth b = headLines depth' b') :
    b.symbols.map Symbol.shown = b'.symbols.map Symbol.shown := by
  have hsymbols : ∀ depth (b : Block),
      ∀ line ∈ b.symbols.map (fun s => (indent depth ++ s.render).toList), isSymbol line = true := by
    intro depth b line hline
    obtain ⟨s, -, rfl⟩ := List.mem_map.1 hline
    exact (kind_of_symbol depth s).2
  have hinstrs : ∀ depth (b : Block), Text.Stops isSymbol
      (b.instrs.toList.map fun i => (indent depth ++ i.render).toList) := by
    intro depth b line hline
    obtain ⟨i, -, rfl⟩ := List.mem_map.1 (List.mem_of_mem_head? hline)
    exact (kind_of_instr depth i).2
  obtain ⟨hlines, -⟩ := Text.cut_unique (hsymbols _ b) (hsymbols _ b') (hinstrs _ b) (hinstrs _ b')
    (List.cons.inj h).2
  exact map_shown_of_lines (fun s hs => (hb.symbols s hs).2) (fun s hs => (hb'.symbols s hs).2) hlines

/-! ## Listings -/

/-- All blocks of a tree are legible. -/
def Legible (t : BlockTree) : Prop := ∀ b ∈ t.blocks, b.Legible

/-- The lines of all blocks of a tree, oldest first. -/
def lines (t : BlockTree) : List (List (List Char)) :=
  (List.range t.blocks.size).map fun id => ((t.block? id).map (headLines (t.depth id))).getD []

theorem getElem?_lines {t : BlockTree} {id : Nat} {b : Block} (hb : t.block? id = some b) :
    t.lines[id]? = some (headLines (t.depth id) b) := by
  have hid : id < t.blocks.size := (Array.getElem?_eq_some_iff.1 hb).1
  rw [lines, List.getElem?_map, List.getElem?_range hid, Option.map_some, hb]
  rfl

theorem exists_of_mem_lines {t : BlockTree} {g : List (List Char)} (h : g ∈ t.lines) :
    ∃ id b, t.block? id = some b ∧ g = headLines (t.depth id) b := by
  obtain ⟨id, hid, rfl⟩ := List.mem_map.1 h
  obtain ⟨b, hb⟩ : ∃ b, t.block? id = some b := ⟨_, Array.getElem?_eq_getElem (List.mem_range.1 hid)⟩
  refine ⟨id, b, hb, ?_⟩
  rw [hb]
  rfl

/-- A listing consists of the lines of the blocks. -/
theorem WellFormed.toList_render {t : BlockTree} (h : t.WellFormed) :
    t.render.toList = Text.ofLines t.lines.flatten := by
  have hblocks : ∀ id, (t.renderBlock id).toList =
      Text.ofLines (((t.block? id).map (headLines (t.depth id))).getD []) := by
    intro id
    rw [renderBlock]
    cases t.block? id with
    | none => rfl
    | some b => exact toList_renderHead (t.depth id) b
  rw [render, h.traversed.render _ (Nat.le_refl _), String.toList_join, Text.ofLines_flatten,
    lines, List.flatMap_map, List.flatMap_map]
  simp only [hblocks]

/-- Two listings are the same only if the trees have the same blocks, as far as
symbols go. -/
theorem WellFormed.shown_of_render {t t' : BlockTree} (hwf : t.WellFormed) (hwf' : t'.WellFormed)
    (ht : t.Legible) (ht' : t'.Legible) (h : t.render = t'.render) :
    t.blocks.size = t'.blocks.size ∧
      ∀ id, (t.symbols id).map Symbol.shown = (t'.symbols id).map Symbol.shown := by
  have hgroups : ∀ t : BlockTree, ∀ g ∈ t.lines, Text.IsGroup isHeading g := by
    intro t g hg
    obtain ⟨id, b, -, rfl⟩ := exists_of_mem_lines hg
    exact isGroup_headLines _ b
  have honeLine : ∀ {t : BlockTree}, t.Legible → ∀ line ∈ t.lines.flatten, '\n' ∉ line := by
    intro t ht line hline
    obtain ⟨g, hg, hmem⟩ := List.mem_flatten.1 hline
    obtain ⟨id, b, hb, rfl⟩ := exists_of_mem_lines hg
    exact one_line_headLines (ht b (Array.mem_of_getElem? hb)) _ line hmem
  have htexts : Text.ofLines t.lines.flatten = Text.ofLines t'.lines.flatten := by
    rw [← hwf.toList_render, ← hwf'.toList_render, h]
  have hlines : t.lines = t'.lines := Text.groups_unique (hgroups t) (hgroups t')
    (Text.ofLines_inj (honeLine ht) (honeLine ht') htexts)
  have hsize : t.blocks.size = t'.blocks.size := by
    have hlength := congrArg List.length hlines
    simpa [lines] using hlength
  refine ⟨hsize, fun id => ?_⟩
  rw [symbols, symbols]
  cases hb : t.block? id with
  | none =>
      have hnone : t'.block? id = none := by
        rw [block?, Array.getElem?_eq_none_iff] at hb ⊢
        rwa [← hsize]
      rw [hnone]
  | some b =>
      obtain ⟨b', hb'⟩ : ∃ b', t'.block? id = some b' := by
        refine ⟨_, Array.getElem?_eq_getElem ?_⟩
        rw [← hsize]
        exact (Array.getElem?_eq_some_iff.1 hb).1
      have hblock := getElem?_lines hb
      rw [hlines, getElem?_lines hb'] at hblock
      rw [hb']
      exact shown_of_headLines (ht b (Array.mem_of_getElem? hb)) (ht' b' (Array.mem_of_getElem? hb'))
        (Option.some.inj hblock).symm

end BlockTree

/-! ## What is shown of a type -/

/-- Names, messages and listings show types up to hoisting: two types have the same
name if and only if they are the same when every reference is moved in front of the
arrays around it, so a name identifies a type among those without arrays of
references.  A message about two types tells both of them, and the listing of a
tree tells every symbol with its type, in the same way. -/
theorem shown_up_to_hoist {a b : Ty} (ha : a.WellNamed) (hb : b.WellNamed) :
    (a.render = b.render ↔ a.hoist = b.hoist) ∧
    ((∀ e n, ¬ Ty.Part (.array (.ref e) n) a) → (∀ e n, ¬ Ty.Part (.array (.ref e) n) b) →
      a.render = b.render → a = b) ∧
    (∀ c d : Ty, c.WellNamed → d.WellNamed →
      ((TypeError.mismatch a b).message = (TypeError.mismatch c d).message ↔
        a.hoist = c.hoist ∧ b.hoist = d.hoist) ∧
      ((TypeError.cannotUnify a b).message = (TypeError.cannotUnify c d).message ↔
        a.hoist = c.hoist ∧ b.hoist = d.hoist)) ∧
    ∀ t t' : BlockTree, t.WellFormed → t'.WellFormed → t.Legible → t'.Legible →
      t.render = t'.render → t.blocks.size = t'.blocks.size ∧
        ∀ id, (t.symbols id).map Symbol.shown = (t'.symbols id).map Symbol.shown := by
  refine ⟨Ty.render_eq_iff ha hb, ?_, ?_, ?_⟩
  · intro hflat hflat' hname
    have hhoist := (Ty.render_eq_iff ha hb).1 hname
    rwa [Ty.hoist_of_flat hflat, Ty.hoist_of_flat hflat'] at hhoist
  · intro c d hc hd
    rw [← String.toList_inj, ← String.toList_inj, TypeError.toList_mismatch,
      TypeError.toList_mismatch, TypeError.toList_cannotUnify, TypeError.toList_cannotUnify]
    exact ⟨Ty.pair_text_iff ha hb hc hd (by decide) _ _, Ty.pair_text_iff ha hb hc hd (by decide) _ _⟩
  · intro t t' hwf hwf' ht ht' hrender
    exact hwf.shown_of_render hwf' ht ht' hrender

/-- The address of a row of tiles. -/
def tileRow : Ty := .ref (.array (.record "Tile_8x8" [.array .byte 8, .named "palette"]) 4)

/-- A row of addresses of tiles. -/
def tileAddresses : Ty := .array (.ref (.record "Tile_8x8" [.array .byte 8, .named "palette"])) 4

theorem wellNamed_tiles : tileRow.WellNamed ∧ tileAddresses.WellNamed := by
  have hnames : ∀ name ∈ ["Tile_8x8", "palette"], Identifier name := by
    intro name hname
    have hword : ∀ name ∈ ["Tile_8x8", "palette"], name ≠ "" ∧
        (∀ c ∈ name.toList, (c.isAlphanum || c == '_') = true) ∧
        name ∉ ["u8", "u16", "struct"] := by simp
    obtain ⟨hne, hletters, hfree⟩ := hword name hname
    exact identifier_of_alphanum hne hletters hfree
  exact ⟨hnames, hnames⟩

/-- A tree with one variable. -/
def oneVariable (ty : Ty) : BlockTree := BlockTree.build [.declare { name := "tiles", ty := ty }]

theorem blocks_oneVariable {ty : Ty} (h : ty.isResolved = true) : (oneVariable ty).blocks =
    #[{ name := "global", kind := .global, symbols := [{ name := "tiles", ty := ty }] }] := by
  simp [oneVariable, BlockTree.build, BlockTree.apply, BlockTree.left, BlockTree.declare, h,
    BlockTree.block?, Block.symbol?, BlockTree.updateCurrent, Option.filter]

theorem legible_oneVariable {ty : Ty} (hresolved : ty.isResolved = true) (h : ty.WellNamed) :
    (oneVariable ty).Legible := by
  intro b hb
  rw [blocks_oneVariable hresolved] at hb
  obtain rfl := Array.mem_singleton.1 hb
  refine ⟨show '\n' ∉ "global".toList by decide, fun s hs => ?_, fun i hi => ?_⟩
  · obtain rfl := List.mem_singleton.1 hs
    exact ⟨show '\n' ∉ "tiles".toList by decide, h⟩
  · exact absurd hi (Array.not_mem_empty i)

theorem render_oneVariable {ty : Ty} (h : ty.isResolved = true) : (oneVariable ty).render =
    BlockTree.renderHead 0
      { name := "global", kind := .global, symbols := [{ name := "tiles", ty := ty }] } := by
  have hsize : (oneVariable ty).blocks.size = 1 := by
    rw [blocks_oneVariable h]
    rfl
  have hroot : (oneVariable ty).block? 0 =
      some { name := "global", kind := .global, symbols := [{ name := "tiles", ty := ty }] } := by
    rw [BlockTree.block?, blocks_oneVariable h]
    rfl
  rw [BlockTree.render, hsize, BlockTree.renderFrom, hroot]
  exact String.append_empty

/-- The listing shows the name of the type and nothing else of it. -/
theorem render_oneVariable_congr {a b : Ty} (ha : a.isResolved = true) (hb : b.isResolved = true)
    (h : a.render = b.render) : (oneVariable a).render = (oneVariable b).render := by
  have hline : (Symbol.mk "tiles" a .auto).render = (Symbol.mk "tiles" b .auto).render :=
    congrArg (fun name => "symbol " ++ "tiles" ++ ": " ++ name ++ "") h
  rw [render_oneVariable ha, render_oneVariable hb]
  simp only [BlockTree.renderHead, List.map_cons, List.map_nil, hline]

/-- A row of addresses has the name of an address of a row; the two are shown alike
by a message in either order and by the listing. -/
theorem shown_tiles :
    tileRow.WellNamed ∧ tileAddresses.WellNamed ∧ tileRow.render = tileAddresses.render ∧
      (TypeError.mismatch tileRow tileAddresses).message =
        (TypeError.mismatch tileAddresses tileRow).message ∧
      (oneVariable tileRow).render = (oneVariable tileAddresses).render ∧
      ((oneVariable tileRow).symbols 0).map Symbol.shown =
        ((oneVariable tileAddresses).symbols 0).map Symbol.shown := by
  obtain ⟨hrow, haddresses⟩ := wellNamed_tiles
  obtain ⟨hname, -, hmessage, hlisting⟩ := shown_up_to_hoist hrow haddresses
  have hsame := hname.2 rfl
  have hrender := render_oneVariable_congr (show tileRow.isResolved = true from rfl)
    (show tileAddresses.isResolved = true from rfl) hsame
  refine ⟨hrow, haddresses, hsame, (hmessage _ _ haddresses hrow).1.2 ⟨rfl, rfl⟩, hrender, ?_⟩
  exact (hlisting _ _ (BlockTree.wellFormed_build _) (BlockTree.wellFormed_build _)
    (legible_oneVariable rfl hrow) (legible_oneVariable rfl haddresses) hrender).2 0

/-- A unit that puts addresses where the address of an array belongs. -/
def misread : List Node := [
  .var {} "a" .byte none [],
  .var {} "p" (.ref (.array .byte 2)) (some (.array ⟨⟨2, 17⟩, .unknown⟩
    [.addressOf {} (.ident {} "a"), .addressOf {} (.ident {} "a")])) []]

/-- The address of an array and an array of addresses are different types with the
same name, so the complaint about the one in the place of the other contradicts
itself: names do not identify types. -/
theorem address_of_array_misread :
    Ty.ref (.array .byte 2) ≠ .array (.ref .byte) 2 ∧
      (Ty.ref (.array .byte 2)).render = "&u8[2]" ∧ (Ty.array (.ref .byte) 2).render = "&u8[2]" ∧
      (Typing.analyze misread).result = .error (.diagnostics
        [⟨⟨2, 17⟩, .rule (.mismatch (.ref (.array .byte 2)) (.array (.ref .byte) 2))⟩]) ∧
      (TypeError.mismatch (.ref (.array .byte 2)) (.array (.ref .byte) 2)).message =
        "expected &u8[2], found &u8[2]" ∧
      (oneVariable (.ref (.array .byte 2))).render = (oneVariable (.array (.ref .byte) 2)).render ∧
      ¬ ∀ a b : Ty, a.WellNamed → b.WellNamed → a.render = b.render → a = b := by
  have hne : Ty.ref (.array .byte 2) ≠ .array (.ref .byte) 2 := by
    intro h
    cases h
  have haddress : (Ty.ref (.array .byte 2)).render = "&u8[2]" := by decide
  have haddresses : (Ty.array (.ref .byte) 2).render = "&u8[2]" := by decide
  have hsame := haddress.trans haddresses.symm
  refine ⟨hne, haddress, haddresses, rfl, ?_, render_oneVariable_congr rfl rfl hsame, fun h => ?_⟩
  · decide
  · refine hne (h _ _ (fun name hname => ?_) (fun name hname => ?_) hsame)
    · cases hname
    · cases hname

end Cartridge
