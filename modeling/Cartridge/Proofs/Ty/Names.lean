/-
# `Cartridge.Proofs.Ty.Names` — what the name of a type tells

A name is written around a *core*, which is a number, a record, a named type or
`unknown`:

    name     &…&  core  [n]…[n]
    core     <none>   u8   u16   word   struct word ∣ name, name, … ∣

References stand in front of the core and lengths behind it, each in their order.
How the two are nested in one another is not written, so `&u8[2]` is the name of the
address of an array and also of an array of addresses.  All else can be read:

    marks    end a word, and no word has one
    words    of the language are no identifiers
    braces   and commas tell the members of a record apart

A type is *hoisted* if no array has references as elements; moving each reference in
front of the arrays around it leaves the name as it is (`render_hoist`).

Proved here: a name that begins a text is read off it up to hoisting, and what is
behind it is found as well (`hoist_of_text`).
-/
import Cartridge.Proofs.Text
import Cartridge.Proofs.Ty.Algebra

namespace Cartridge

/-! ## Words -/

/-- The characters that end a word. -/
def marks : List Char := [' ', ',', '&', '[', ']', '\x7b', '\x7d', '<', '>', ':', '\n']

/-- May the character stand in a word? -/
def isPlain (c : Char) : Bool := !marks.contains c

/-- A word that can be the name of a type: it has no marks and is none of the words
of the language. -/
structure Identifier (name : String) : Prop where
  nonempty : name ≠ ""
  plain : ∀ c ∈ name.toList, isPlain c = true
  free : name ∉ ["u8", "u16", "struct"]

/-- Letters, digits and underscores make an identifier. -/
theorem identifier_of_alphanum {name : String} (hne : name ≠ "")
    (hword : ∀ c ∈ name.toList, (c.isAlphanum || c == '_') = true)
    (hfree : name ∉ ["u8", "u16", "struct"]) : Identifier name := by
  refine ⟨hne, fun c hc => ?_, hfree⟩
  have hmarks : ∀ c ∈ marks, (c.isAlphanum || c == '_') = false := by simp [marks]
  cases hmark : marks.contains c with
  | false => rw [isPlain, hmark, Bool.not_false]
  | true =>
      have hletter := hword c hc
      rw [hmarks c (List.contains_iff_mem.1 hmark)] at hletter
      cases hletter

/-- A word ends here. -/
abbrev Ends (rest : List Char) : Prop := Text.Stops isPlain rest

/-- A name ends here: no word goes on, and no length follows. -/
structure Closes (rest : List Char) : Prop where
  word : Ends rest
  length : Text.Stops (· == '[') rest

theorem closes_nil : Closes [] := ⟨Text.stops_nil _, Text.stops_nil _⟩

/-- A blank or a comma ends a name. -/
theorem closes_cons {c : Char} (hc : c ∈ [' ', ',']) (rest : List Char) : Closes (c :: rest) := by
  have hmark : ∀ c ∈ [' ', ','], isPlain c = false ∧ (c == '[') = false := by simp [isPlain, marks]
  exact ⟨Text.stops_cons (hmark c hc).1 rest,
    @Text.stops_cons _ (· == '[') c (hmark c hc).2 rest⟩

namespace Ty

mutual

/-- The names of all named types and records in a type. -/
def names : Ty → List String
  | .named name => [name]
  | .array e _ | .ref e => e.names
  | .record name members => name :: namesAll members
  | .unknown | .byte | .word => []

def namesAll : List Ty → List String
  | [] => []
  | m :: ms => m.names ++ namesAll ms

end

/-- All names in a type are identifiers. -/
def WellNamed (ty : Ty) : Prop := ∀ name ∈ ty.names, Identifier name

theorem wellNamed_of_cons {m : Ty} {ms : List Ty}
    (h : ∀ name ∈ namesAll (m :: ms), Identifier name) :
    m.WellNamed ∧ ∀ name ∈ namesAll ms, Identifier name :=
  List.forall_mem_append.1 h

theorem wellNamed_of_record {name : String} {members : List Ty}
    (h : (Ty.record name members).WellNamed) :
    Identifier name ∧ ∀ name ∈ namesAll members, Identifier name :=
  List.forall_mem_cons.1 h

/-! ## References in front -/

/-- A row of values, with the references in front of the row. -/
def row : Ty → Nat → Ty
  | .ref e, n => .ref (e.row n)
  | ty, n => .array ty n

mutual

/-- The type with every reference in front of the arrays around it. -/
def hoist : Ty → Ty
  | .array e n => e.hoist.row n
  | .ref e => .ref e.hoist
  | .record name members => .record name (hoistAll members)
  | ty => ty

def hoistAll : List Ty → List Ty
  | [] => []
  | m :: ms => m.hoist :: hoistAll ms

end

theorem row_of_not_ref {ty : Ty} (h : ∀ e, ty ≠ .ref e) (n : Nat) : ty.row n = .array ty n := by
  cases ty with
  | ref e => exact absurd rfl (h e)
  | _ => rfl

mutual

/-- A type without arrays of references is as it is. -/
theorem hoist_of_flat : ∀ {ty : Ty}, (∀ e n, ¬ Part (.array (.ref e) n) ty) → ty.hoist = ty
  | .unknown, _ | .named _, _ | .byte, _ | .word, _ => rfl
  | .array e n, h => by
      have helem : e.hoist = e := hoist_of_flat fun e' n' hpart => h e' n' (.element hpart)
      rw [hoist, helem]
      refine row_of_not_ref (fun e' heq => ?_) n
      subst heq
      exact h e' n .self
  | .ref e, h => by
      rw [hoist, hoist_of_flat fun e' n' hpart => h e' n' (.target hpart)]
  | .record name members, h => by
      rw [hoist, hoistAll_of_flat fun m hm e' n' hpart => h e' n' (.member hm hpart)]

theorem hoistAll_of_flat : ∀ {ms : List Ty}, (∀ m ∈ ms, ∀ e n, ¬ Part (.array (.ref e) n) m) →
    hoistAll ms = ms
  | [], _ => rfl
  | m :: ms, h => by
      rw [hoistAll, hoist_of_flat (h m List.mem_cons_self),
        hoistAll_of_flat fun m' hm' => h m' (List.mem_cons_of_mem m hm')]

end

/-! ## The name as a text -/

/-- The characters of the name. -/
def text (ty : Ty) : List Char := ty.render.toList

/-- The members of a record as a text, with the blank before each. -/
def body (members : List Ty) : List Char := (renderMembers members).toList

/-- Further members, with a comma before each. -/
def further : List Ty → List Char
  | [] => []
  | m :: ms => ',' :: body (m :: ms)

theorem text_array (e : Ty) (n : Nat) :
    (Ty.array e n).text = e.text ++ '[' :: (Nat.toDigits 10 n ++ [']']) := by
  simp [text, render, Nat.toList_repr]

theorem text_ref (e : Ty) : (Ty.ref e).text = '&' :: e.text := by
  simp [text, render]

theorem text_record (name : String) (members : List Ty) :
    (Ty.record name members).text = "struct".toList ++
      ' ' :: (name.toList ++ ' ' :: '\x7b' :: (body members ++ [' ', '\x7d'])) := by
  simp [text, body, render]

theorem body_cons (m : Ty) (ms : List Ty) : body (m :: ms) = ' ' :: (m.text ++ further ms) := by
  cases ms with
  | nil => simp [body, text, further, renderMembers]
  | cons m' ms => simp [body, text, further, renderMembers]

theorem render_row : ∀ (ty : Ty) (n : Nat), (ty.row n).render = (Ty.array ty n).render
  | .ref e, n => by
      simp only [row, render, render_row e n, String.append_assoc]
  | .unknown, _ | .named _, _ | .byte, _ | .word, _ | .array _ _, _ | .record _ _, _ => rfl

mutual

/-- Hoisting leaves the name as it is. -/
theorem render_hoist : ∀ ty : Ty, ty.hoist.render = ty.render
  | .unknown | .named _ | .byte | .word => rfl
  | .array e n => by
      rw [hoist, render_row, render, render, render_hoist e]
  | .ref e => by
      rw [hoist, render, render, render_hoist e]
  | .record name members => by
      rw [hoist, render, render, renderMembers_hoistAll members]

theorem renderMembers_hoistAll : ∀ ms : List Ty, renderMembers (hoistAll ms) = renderMembers ms
  | [] => rfl
  | [m] => by
      rw [hoistAll, hoistAll, renderMembers, renderMembers, render_hoist m]
  | m :: m' :: ms => by
      have htail := renderMembers_hoistAll (m' :: ms)
      rw [hoistAll] at htail
      rw [hoistAll, hoistAll, renderMembers, renderMembers, render_hoist m, htail]

end

theorem render_of_hoist {a b : Ty} (h : a.hoist = b.hoist) : a.render = b.render := by
  rw [← render_hoist a, h, render_hoist b]

/-! ## The parts of a name -/

/-- The number of references around the core. -/
def refs : Ty → Nat
  | .ref e => e.refs + 1
  | .array e _ => e.refs
  | _ => 0

/-- The lengths of the arrays around the core, innermost first. -/
def lengths : Ty → List Nat
  | .ref e => e.lengths
  | .array e n => e.lengths ++ [n]
  | _ => []

/-- What all references and arrays are around. -/
def core : Ty → Ty
  | .ref e | .array e _ => e.core
  | ty => ty

/-- Neither a reference nor an array. -/
def isCore : Ty → Bool
  | .ref _ | .array _ _ => false
  | _ => true

theorem isCore_core : ∀ ty : Ty, ty.core.isCore = true
  | .ref e => isCore_core e
  | .array e _ => isCore_core e
  | .unknown | .named _ | .byte | .word | .record _ _ => rfl

theorem names_core : ∀ ty : Ty, ty.core.names = ty.names
  | .ref e => names_core e
  | .array e _ => names_core e
  | .unknown | .named _ | .byte | .word | .record _ _ => rfl

theorem WellNamed.core {ty : Ty} (h : ty.WellNamed) : ty.core.WellNamed := by
  intro name hname
  rw [names_core] at hname
  exact h name hname

/-- Lengths in brackets. -/
def brackets (lengths : List Nat) : List Char :=
  lengths.flatMap fun n => '[' :: (Nat.toDigits 10 n ++ [']'])

theorem text_eq_parts : ∀ ty : Ty,
    ty.text = List.replicate ty.refs '&' ++ (ty.core.text ++ brackets ty.lengths)
  | .ref e => by
      rw [text_ref, text_eq_parts e]
      rfl
  | .array e n => by
      rw [text_array, text_eq_parts e]
      simp [refs, core, lengths, brackets]
  | .unknown | .named _ | .byte | .word | .record _ _ => by
      simp [refs, core, lengths, brackets]

/-- References in front of a type. -/
def refTo : Nat → Ty → Ty
  | 0, ty => ty
  | k + 1, ty => .ref (refTo k ty)

theorem row_refTo {ty : Ty} (h : ∀ e, ty ≠ .ref e) (n : Nat) :
    ∀ k, (refTo k ty).row n = refTo k (.array ty n)
  | 0 => row_of_not_ref h n
  | k + 1 => by
      rw [refTo, row, row_refTo h n k, refTo]

theorem foldl_array_ne_ref {ty : Ty} (h : ∀ e, ty ≠ .ref e) :
    ∀ (lengths : List Nat) (e : Ty), lengths.foldl .array ty ≠ .ref e
  | [], e => h e
  | n :: lengths, e => by
      refine foldl_array_ne_ref (fun e' heq => ?_) lengths e
      cases heq

theorem hoist_ne_ref {ty : Ty} (h : ty.isCore = true) (e : Ty) : ty.hoist ≠ .ref e := by
  intro heq
  cases ty with
  | ref _ | array _ _ => cases h
  | _ => cases heq

/-- A hoisted type is told by the three parts. -/
theorem hoist_eq_parts : ∀ ty : Ty,
    ty.hoist = refTo ty.refs (ty.lengths.foldl .array ty.core.hoist)
  | .ref e => by
      rw [hoist, hoist_eq_parts e]
      rfl
  | .array e n => by
      have hcore := foldl_array_ne_ref (hoist_ne_ref (isCore_core e)) e.lengths
      rw [hoist, hoist_eq_parts e, row_refTo hcore]
      simp [refs, core, lengths]
  | .unknown | .named _ | .byte | .word | .record _ _ => rfl

/-! ## Reading a core -/

/-- The word that a core begins with, if it begins with one. -/
def lead : Ty → String
  | .named name => name
  | .byte => "u8"
  | .word => "u16"
  | .record _ _ => "struct"
  | _ => ""

/-- What follows that word. -/
def trail : Ty → List Char
  | .named _ | .byte | .word => []
  | .record name members =>
      ' ' :: (name.toList ++ ' ' :: '\x7b' :: (body members ++ [' ', '\x7d']))
  | ty => ty.text

theorem text_eq_lead_trail (ty : Ty) : ty.text = ty.lead.toList ++ ty.trail := by
  cases ty with
  | record name members => exact text_record name members
  | unknown | array _ _ | ref _ => simp [lead, trail]
  | named _ | byte | word => simp [lead, trail, text, render]

theorem plain_lead {ty : Ty} (h : ty.WellNamed) : ∀ c ∈ ty.lead.toList, isPlain c = true := by
  cases ty with
  | named name => exact (h name List.mem_cons_self).plain
  | byte | word | record _ _ => simp [lead, isPlain, marks]
  | unknown | array _ _ | ref _ =>
      intro c hc
      simp [lead] at hc

theorem ends_trail {ty : Ty} (h : ty.isCore = true) {rest : List Char} (hrest : Ends rest) :
    Ends (ty.trail ++ rest) := by
  cases ty with
  | ref _ | array _ _ => cases h
  | unknown => exact Text.stops_cons (by decide) _
  | record name members => exact Text.stops_cons (by decide) _
  | named _ | byte | word => exact hrest

/-- The core that a word alone stands for. -/
def ofLead (word : String) : Ty :=
  if word = "" then .unknown
  else if word = "u8" then .byte
  else if word = "u16" then .word
  else .named word

/-- A core is a record, or its first word tells which it is. -/
theorem lead_cases {ty : Ty} (h : ty.isCore = true) (hnamed : ty.WellNamed) :
    (∃ name members, ty = .record name members) ∧ ty.lead = "struct" ∨
      ty = ofLead ty.lead ∧ ty.lead ≠ "struct" := by
  cases ty with
  | ref _ | array _ _ => cases h
  | record name members => exact .inl ⟨⟨name, members, rfl⟩, rfl⟩
  | unknown | byte | word => exact .inr ⟨by decide, by decide⟩
  | named name =>
      have hname := hnamed name List.mem_cons_self
      have hfree := hname.free
      simp only [List.mem_cons, List.not_mem_nil, or_false, not_or] at hfree
      refine .inr ⟨?_, hfree.2.2⟩
      rw [lead, ofLead, if_neg hname.nonempty, if_neg hfree.1, if_neg hfree.2.1]

theorem eq_or_records_of_lead {ty ty' : Ty} (h : ty.isCore = true) (h' : ty'.isCore = true)
    (hnamed : ty.WellNamed) (hnamed' : ty'.WellNamed) (hlead : ty.lead = ty'.lead) :
    ty = ty' ∨ (∃ name members, ty = .record name members) ∧
      ∃ name' members', ty' = .record name' members' := by
  rcases lead_cases h hnamed with ⟨hrecord, hstruct⟩ | ⟨hword, hother⟩
  · rcases lead_cases h' hnamed' with ⟨hrecord', -⟩ | ⟨-, hother'⟩
    · exact .inr ⟨hrecord, hrecord'⟩
    · exact absurd (hlead.symm.trans hstruct) hother'
  · rcases lead_cases h' hnamed' with ⟨-, hstruct'⟩ | ⟨hword', -⟩
    · exact absurd (hlead.trans hstruct') hother
    · exact .inl (by rw [hword, hlead, ← hword'])

/-- A core that begins a text is read off it, and so is what follows. -/
def CoreReads (ty : Ty) : Prop := ∀ ⦃ty' : Ty⦄ ⦃rest rest' : List Char⦄, ty'.isCore = true →
  ty'.WellNamed → Ends rest → Ends rest' → ty.text ++ rest = ty'.text ++ rest' →
  ty.hoist = ty'.hoist ∧ rest = rest'

/-- A type whose name begins a text is read off it up to hoisting. -/
def Reads (ty : Ty) : Prop := ∀ ⦃ty' : Ty⦄ ⦃rest rest' : List Char⦄, ty'.WellNamed →
  Closes rest → Closes rest' → ty.text ++ rest = ty'.text ++ rest' →
  ty.hoist = ty'.hoist ∧ rest = rest'

/-- Members are read up to the brace behind them. -/
def BodyReads (members : List Ty) : Prop := ∀ ⦃members' : List Ty⦄ ⦃rest rest' : List Char⦄,
  (∀ name ∈ namesAll members', Identifier name) →
  body members ++ ' ' :: '\x7d' :: rest = body members' ++ ' ' :: '\x7d' :: rest' →
  hoistAll members = hoistAll members' ∧ rest = rest'

/-- Of two cores that begin the same text the first words are the same, and what
follows these. -/
theorem lead_unique {ty ty' : Ty} {rest rest' : List Char} (h : ty.isCore = true)
    (h' : ty'.isCore = true) (hnamed : ty.WellNamed) (hnamed' : ty'.WellNamed)
    (hrest : Ends rest) (hrest' : Ends rest') (htext : ty.text ++ rest = ty'.text ++ rest') :
    ty.lead = ty'.lead ∧ ty.trail ++ rest = ty'.trail ++ rest' := by
  rw [text_eq_lead_trail ty, text_eq_lead_trail ty', List.append_assoc, List.append_assoc] at htext
  obtain ⟨hlead, htrail⟩ := Text.cut_unique (plain_lead hnamed) (plain_lead hnamed')
    (ends_trail h hrest) (ends_trail h' hrest') htext
  exact ⟨String.toList_inj.1 hlead, htrail⟩

/-- A core that is no record is read by its first word. -/
theorem coreReads_of_word {ty : Ty} (h : ty.isCore = true) (hnamed : ty.WellNamed)
    (hother : ∀ name members, ty ≠ .record name members) : ty.CoreReads := by
  intro ty' rest rest' h' hnamed' hrest hrest' htext
  obtain ⟨hlead, htrail⟩ := lead_unique h h' hnamed hnamed' hrest hrest' htext
  rcases eq_or_records_of_lead h h' hnamed hnamed' hlead with rfl | ⟨⟨name, members, hrecord⟩, -⟩
  · exact ⟨rfl, List.append_cancel_left htrail⟩
  · exact absurd hrecord (hother name members)

/-- A record is read by its name and its members. -/
theorem coreReads_of_body {name : String} {members : List Ty}
    (hnamed : (Ty.record name members).WellNamed) (hbody : BodyReads members) :
    (Ty.record name members).CoreReads := by
  intro ty' rest rest' h' hnamed' hrest hrest' htext
  obtain ⟨hlead, htrail⟩ := lead_unique rfl h' hnamed hnamed' hrest hrest' htext
  rcases eq_or_records_of_lead rfl h' hnamed hnamed' hlead with rfl | ⟨-, name', members', rfl⟩
  · exact ⟨rfl, List.append_cancel_left htrail⟩
  · simp only [trail, List.cons_append, List.append_assoc, List.cons.injEq, true_and,
      List.nil_append] at htrail
    obtain ⟨hidentifier, -⟩ := wellNamed_of_record hnamed
    obtain ⟨hidentifier', hall'⟩ := wellNamed_of_record hnamed'
    obtain ⟨hname, htail⟩ := Text.cut_unique hidentifier.plain hidentifier'.plain
      (Text.stops_cons rfl _) (Text.stops_cons rfl _) htrail
    simp only [List.cons.injEq, true_and] at htail
    obtain ⟨hmembers, hrest⟩ := hbody hall' htail
    rw [hoist, hoist, hmembers, String.toList_inj.1 hname]
    exact ⟨rfl, hrest⟩

/-! ## Reading a name -/

/-- A core begins with a word or with the bracket of `unknown`. -/
theorem core_begins {ty : Ty} (h : ty.isCore = true) (hnamed : ty.WellNamed) :
    ∃ c rest, ty.text = c :: rest ∧ (isPlain c = true ∨ c = '<') := by
  have hplain := plain_lead hnamed
  cases hlead : ty.lead.toList with
  | cons c word =>
      rw [hlead] at hplain
      refine ⟨c, word ++ ty.trail, ?_, .inl (hplain c List.mem_cons_self)⟩
      rw [text_eq_lead_trail, hlead, List.cons_append]
  | nil =>
      have hempty := String.toList_eq_nil_iff.1 hlead
      rcases lead_cases h hnamed with ⟨-, hstruct⟩ | ⟨hword, -⟩
      · rw [hempty] at hstruct
        exact absurd hstruct (by decide)
      · rw [hempty] at hword
        subst hword
        exact ⟨'<', _, rfl, .inr rfl⟩

theorem core_stops {ty : Ty} (h : ty.isCore = true) (hnamed : ty.WellNamed) (rest : List Char) :
    Text.Stops (· == '&') (ty.text ++ rest) := by
  obtain ⟨c, tail, htext, hc⟩ := core_begins h hnamed
  rw [htext]
  refine Text.stops_cons ?_ _
  rcases hc with hplain | rfl
  · refine beq_eq_false_iff_ne.2 fun heq => ?_
    rw [heq] at hplain
    cases hplain
  · rfl

/-- No name begins with a closing brace. -/
theorem text_begins {ty : Ty} (hnamed : ty.WellNamed) :
    ∃ c rest, ty.text = c :: rest ∧ c ≠ '\x7d' := by
  rw [text_eq_parts]
  cases ty.refs with
  | succ k => exact ⟨'&', _, rfl, by decide⟩
  | zero =>
      obtain ⟨c, tail, htext, hc⟩ := core_begins ty.isCore_core hnamed.core
      refine ⟨c, tail ++ brackets ty.lengths, by rw [htext]; rfl, ?_⟩
      intro heq
      rw [heq] at hc
      revert hc
      decide

theorem brackets_unique : ∀ {lengths lengths' : List Nat} {rest rest' : List Char},
    Text.Stops (· == '[') rest → Text.Stops (· == '[') rest' →
    brackets lengths ++ rest = brackets lengths' ++ rest' → lengths = lengths' ∧ rest = rest'
  | [], [], _, _, _, _, h => ⟨rfl, h⟩
  | [], n :: lengths, rest, rest', hrest, _, h => by
      rw [show brackets [] ++ rest = rest from rfl] at h
      rw [h] at hrest
      cases hrest '[' rfl
  | n :: lengths, [], rest, rest', _, hrest', h => by
      rw [show brackets [] ++ rest' = rest' from rfl] at h
      rw [← h] at hrest'
      cases hrest' '[' rfl
  | n :: lengths, n' :: lengths', rest, rest', hrest, hrest', h => by
      simp only [brackets, List.flatMap_cons, List.cons_append, List.append_assoc,
        List.cons.injEq, true_and, List.nil_append] at h
      obtain ⟨rfl, htail⟩ := Text.number_unique (Text.stops_cons rfl _) (Text.stops_cons rfl _) h
      obtain ⟨hlengths, hends⟩ := brackets_unique hrest hrest' (List.cons.inj htail).2
      exact ⟨by rw [hlengths], hends⟩

theorem ends_brackets {rest : List Char} (h : Ends rest) (lengths : List Nat) :
    Ends (brackets lengths ++ rest) := by
  cases lengths with
  | nil => exact h
  | cons n lengths => exact Text.stops_cons rfl _

/-- A name is read part by part. -/
theorem CoreReads.reads {ty : Ty} (hnamed : ty.WellNamed) (h : ty.core.CoreReads) : ty.Reads := by
  intro ty' rest rest' hnamed' hrest hrest' htext
  rw [text_eq_parts ty, text_eq_parts ty', List.append_assoc, List.append_assoc, List.append_assoc,
    List.append_assoc] at htext
  have hampersands : ∀ k, ∀ c ∈ List.replicate k '&', (c == '&') = true := by simp
  obtain ⟨hrefs, htext⟩ := Text.cut_unique (hampersands _) (hampersands _)
    (core_stops ty.isCore_core hnamed.core _) (core_stops ty'.isCore_core hnamed'.core _) htext
  obtain ⟨hcore, htext⟩ := h ty'.isCore_core hnamed'.core (ends_brackets hrest.word _)
    (ends_brackets hrest'.word _) htext
  obtain ⟨hlengths, htext⟩ := brackets_unique hrest.length hrest'.length htext
  have hcount := congrArg List.length hrefs
  rw [List.length_replicate, List.length_replicate] at hcount
  rw [hoist_eq_parts ty, hoist_eq_parts ty', hcount, hcore, hlengths]
  exact ⟨rfl, htext⟩

theorem closes_further (members : List Ty) (rest : List Char) :
    Closes (further members ++ ' ' :: rest) := by
  cases members with
  | nil => exact closes_cons (by decide) rest
  | cons m ms => exact closes_cons (by decide) _

/-- Further members are read as the first ones are. -/
theorem BodyReads.further {members members' : List Ty} {rest rest' : List Char}
    (h : BodyReads members) (hnamed' : ∀ name ∈ namesAll members', Identifier name)
    (htext : further members ++ ' ' :: '\x7d' :: rest =
      Ty.further members' ++ ' ' :: '\x7d' :: rest') :
    hoistAll members = hoistAll members' ∧ rest = rest' := by
  cases members with
  | nil =>
      cases members' with
      | nil => exact ⟨rfl, by simpa [Ty.further] using htext⟩
      | cons m' ms' => exact absurd (List.cons.inj htext).1 (by decide)
  | cons m ms =>
      cases members' with
      | nil => exact absurd (List.cons.inj htext).1 (by decide)
      | cons m' ms' => exact h hnamed' (List.cons.inj htext).2

/-- The text of a member is not taken for the brace behind the members. -/
theorem body_cons_ne {m : Ty} (hm : m.WellNamed) (ms : List Ty) (rest rest' : List Char) :
    body (m :: ms) ++ rest ≠ body [] ++ ' ' :: '\x7d' :: rest' := by
  intro h
  obtain ⟨c, tail, hbegin, hc⟩ := text_begins hm
  rw [body_cons, hbegin] at h
  exact hc (List.cons.inj (List.cons.inj h).2).1

theorem bodyReads_nil : BodyReads [] := by
  intro members' rest rest' hnamed' htext
  cases members' with
  | nil => exact ⟨rfl, by simpa using htext⟩
  | cons m' ms' => exact absurd htext.symm (body_cons_ne (wellNamed_of_cons hnamed').1 ms' _ _)

/-- Members are read one by one. -/
theorem bodyReads_cons {m : Ty} {ms : List Ty} (hm : m.WellNamed) (h : m.Reads)
    (hms : BodyReads ms) : BodyReads (m :: ms) := by
  intro members' rest rest' hnamed' htext
  cases members' with
  | nil => exact absurd htext (body_cons_ne hm ms _ _)
  | cons m' ms' =>
      obtain ⟨hm', hms'⟩ := wellNamed_of_cons hnamed'
      rw [body_cons, body_cons, List.cons_append, List.cons_append, List.append_assoc,
        List.append_assoc] at htext
      obtain ⟨hfirst, htail⟩ := h hm' (closes_further ms _) (closes_further ms' _)
        (List.cons.inj htext).2
      obtain ⟨hothers, hrest⟩ := hms.further hms' htail
      rw [hoistAll, hoistAll, hfirst, hothers]
      exact ⟨rfl, hrest⟩

mutual

/-- The core of every type can be read. -/
theorem coreReads_core : ∀ {ty : Ty}, ty.WellNamed → ty.core.CoreReads
  | .ref e, h => @coreReads_core e h
  | .array e _, h => @coreReads_core e h
  | .unknown, h => coreReads_of_word rfl h (by simp [core])
  | .named _, h => coreReads_of_word rfl h (by simp [core])
  | .byte, h => coreReads_of_word rfl h (by simp [core])
  | .word, h => coreReads_of_word rfl h (by simp [core])
  | .record _ _, h => coreReads_of_body h (bodyReads (wellNamed_of_record h).2)

theorem bodyReads : ∀ {members : List Ty}, (∀ name ∈ namesAll members, Identifier name) →
    BodyReads members
  | [], _ => bodyReads_nil
  | _ :: _, h => by
      obtain ⟨hm, hms⟩ := wellNamed_of_cons h
      exact bodyReads_cons hm ((coreReads_core hm).reads hm) (bodyReads hms)

end

/-- A name that begins a text is read off it up to hoisting, and so is what follows,
provided that the name ends there. -/
theorem hoist_of_text {a b : Ty} (ha : a.WellNamed) (hb : b.WellNamed) {rest rest' : List Char}
    (hrest : Closes rest) (hrest' : Closes rest') (h : a.text ++ rest = b.text ++ rest') :
    a.hoist = b.hoist ∧ rest = rest' :=
  (coreReads_core ha).reads ha hb hrest hrest' h

/-- Two types have the same name if and only if they are the same up to hoisting. -/
theorem render_eq_iff {a b : Ty} (ha : a.WellNamed) (hb : b.WellNamed) :
    a.render = b.render ↔ a.hoist = b.hoist := by
  constructor
  · intro h
    have htext : a.text ++ [] = b.text ++ [] := by rw [text, text, h]
    exact (hoist_of_text ha hb closes_nil closes_nil htext).1
  · exact render_of_hoist

end Ty

end Cartridge
