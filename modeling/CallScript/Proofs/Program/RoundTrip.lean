import CallScript.Program.Printer
import CallScript.Proofs.Program.Parsing
import CallScript.Proofs.Program.Quoting

/- Programs written out and read again. The text of a program that was read is always a program. It
   is the same program exactly when every string is read back from what quoting writes for it and
   every number is finite: the infinities, which come of numbers too large, are written with
   names. -/
namespace CallScript

def Number.isFinite (x : Number) : Bool := x.magnitude < infiniteMagnitude

mutual

def Argument.isReadBack (printable : Nat → Bool) : Argument → Bool
  | .call _ args => Argument.areReadBack printable args
  | .ident _ => true
  | .literal (.string text) => text.isReadBack printable
  | .literal (.number x) => x.isFinite
  | _ => false

def Argument.areReadBack (printable : Nat → Bool) : List Argument → Bool
  | [] => true
  | a :: rest => a.isReadBack printable && Argument.areReadBack printable rest

end

def Program.isReadBack (printable : Nat → Bool) (p : Program) : Bool :=
  p.all fun inv => Argument.areReadBack printable inv.args

namespace Grammar

open Lexical

/-- A name is a name wherever a byte follows that belongs to no name. -/
theorem IsName.before {name after : Bytes} (isName : IsName name after) {c : UInt8}
    (part : isWordPart c = false) (operator : isOperator c = false) (rest : Bytes) :
    IsName name (c :: rest) := by
  rcases isName with ⟨starts, longest⟩ | ⟨some, longest⟩
  · exact Or.inl ⟨starts, longest_of_all longest.all part⟩
  · refine Or.inr ⟨some, ?_⟩
    clear some
    induction name with
    | nil => simp [Longest, startsWith, operator]
    | cons d name ih =>
      refine ⟨?_, ih longest.2⟩
      have here := longest.1
      cases name with
      | nil =>
        have slash : c ≠ ascii '/' := by
          rintro rfl
          exact absurd operator (by decide)
        simp [startsWith, startsComment, slash] at here ⊢
        exact here.1
      | cons e name => exact here

end Grammar

mutual

/-- What an argument that was read is made of: names, strings, and numbers that are not NaN. -/
def Argument.Lexical : Argument → Prop
  | .call name args => Grammar.IsName name [ascii '('] ∧ Argument.AreLexical args
  | .ident name => Grammar.IsName name [ascii '(']
  | .literal (.string _) => True
  | .literal (.number x) => x.isNaN = false
  | _ => False

def Argument.AreLexical : List Argument → Prop
  | [] => True
  | a :: rest => a.Lexical ∧ Argument.AreLexical rest

end

def Invocation.Lexical (inv : Invocation) : Prop :=
  Grammar.IsName inv.name [ascii '('] ∧ Argument.AreLexical inv.args

namespace Grammar

open Lexical

mutual

theorem Phrase.Valid.lexical : ∀ {p : Phrase} {after : Bytes}, p.Valid after → p.tree.Lexical
  | .string pieces, after, _ => by
    rw [Phrase.tree, Argument.Lexical]
    trivial
  | .number figure, after, _ => by
    rw [Phrase.tree, Argument.Lexical]
    exact Number.ofRatio_not_nan _ _ _
  | .ident name, after, valid => by
    rw [Phrase.Valid] at valid
    rw [Phrase.tree, Argument.Lexical]
    exact valid.1.before (by decide) (by decide) []
  | .call name items, after, valid => by
    rw [Phrase.Valid] at valid
    rw [Phrase.tree, Argument.Lexical]
    exact ⟨valid.1.before (by decide) (by decide) [], Items.Valid.lexical valid.2⟩

theorem Items.Valid.lexical :
    ∀ {items : Items} {after : Bytes}, items.Valid after → Argument.AreLexical items.trees
  | .close gap, after, _ => by
    rw [Items.trees, Argument.AreLexical]
    trivial
  | .item gap phrase comma rest, after, valid => by
    rw [Items.Valid] at valid
    rw [Items.trees, Argument.AreLexical]
    exact ⟨Phrase.Valid.lexical valid.2.1, Items.Valid.lexical valid.2.2.2⟩

end

theorem Derivation.Valid.lexical {d : Derivation} (valid : d.Valid) :
    ∀ inv ∈ d.program, inv.Lexical := by
  induction d with
  | finish gap comment => simp [Derivation.program]
  | statement first rest ih =>
    obtain ⟨⟨_, isName, items⟩, later⟩ := valid
    intro inv held
    rcases List.mem_cons.mp held with rfl | held
    · exact ⟨isName.before (by decide) (by decide) [], items.lexical⟩
    · exact ih later inv held

def Follows (text : Bytes) : Prop := ∃ c rest, text = c :: rest ∧ (c = ascii ',' ∨ c = ascii ')')

theorem join_one (sep part : Bytes) : Bytes.join sep [part] = part := by
  simp [Bytes.join, List.intercalate]

theorem join_more (sep part other : Bytes) (parts : List Bytes) :
    Bytes.join sep (part :: other :: parts) = part ++ (sep ++ Bytes.join sep (other :: parts)) := by
  simp [Bytes.join, List.intercalate]

section Writing

variable {printable : Nat → Bool} (h : Heap)

/-- A phrase that writes an argument: it is the argument exactly if that is read back. -/
structure Writes (printable : Nat → Bool) (h : Heap) (a : Argument) (phrase : Phrase)
    (after : Bytes) : Prop where
  valid : phrase.Valid after
  text : phrase.text = a.render h printable
  tree : phrase.tree = a ↔ a.isReadBack printable = true

theorem exists_phrase_string (standard : PrintsAscii printable) (s : Bytes) (after : Bytes) :
    ∃ phrase, Writes printable h (.literal (.string s)) phrase after := by
  obtain ⟨pieces, valid, text, back⟩ := exists_pieces_quote standard s
  refine ⟨.string pieces, ?_, ?_, ?_⟩
  · rw [Phrase.Valid]
    exact valid
  · rw [Phrase.text, ← text]
    rfl
  · rw [Phrase.tree, Argument.isReadBack, ← back]
    simp

theorem follows_stops {after : Bytes} (follows : Follows after) :
    startsWith (fun c => isWordPart c || c = ascii '.') after = false ∧
      startsWith (· = ascii '(') after = false ∧ startsWith Bytes.isDigit after = false := by
  obtain ⟨c, rest, rfl, rfl | rfl⟩ := follows
  · exact ⟨rfl, rfl, rfl⟩
  · exact ⟨rfl, rfl, rfl⟩

theorem exists_phrase_finite {x : Number} (finite : x.isFinite = true) {after : Bytes}
    (follows : Follows after) :
    ∃ phrase, Writes printable h (.literal (.number x)) phrase after := by
  obtain ⟨n, text, value, valid⟩ := exists_figure_render (of_decide_eq_true finite)
  refine ⟨.number n, ?_, ?_, ?_⟩
  · rw [Phrase.Valid]
    exact valid after (follows_stops follows).1
  · rw [Phrase.text, text]
    rfl
  · rw [Phrase.tree, value, Argument.isReadBack, finite]
    simp

theorem valid_ident {name after : Bytes} (isName : IsName name [ascii '('])
    (follows : Follows after) :
    (Phrase.ident name).Valid after := by
  rw [Phrase.Valid]
  refine ⟨?_, (follows_stops follows).2.1, fun _ => (follows_stops follows).2.2⟩
  obtain ⟨c, rest, rfl, rfl | rfl⟩ := follows
  · exact isName.before (by decide) (by decide) rest
  · exact isName.before (by decide) (by decide) rest

theorem isName_inf : IsName (utf8 "inf") [ascii '('] :=
  Or.inl ⟨rfl, longest_of_all (by decide +kernel) rfl⟩

structure WritesItem (printable : Nat → Bool) (h : Heap) (a : Argument) (gap : Gap)
    (comma : Option Gap) (rest items : Items) (after : Bytes) : Prop where
  valid : items.Valid after
  text : items.text = gapText gap ++ (a.render h printable ++ (commaText comma ++ rest.text))
  trees : ∀ args, items.trees = a :: args ↔ a.isReadBack printable = true ∧ rest.trees = args

variable {a : Argument} {gap : Gap} {comma : Option Gap} {rest : Items} {after : Bytes}

theorem Writes.item {h : Heap} {phrase : Phrase}
    (writes : Writes printable h a phrase (commaText comma ++ (rest.text ++ after)))
    (gapValid : GapValid gap) (commaValid : ∀ g ∈ comma, GapValid g)
    (restValid : rest.Valid after) :
    WritesItem printable h a gap comma rest (.item gap phrase comma rest) after := by
  refine ⟨?_, ?_, ?_⟩
  · rw [Items.Valid]
    exact ⟨gapValid, writes.valid, commaValid, restValid⟩
  · rw [Items.text, writes.text]
  · intro args
    rw [Items.trees, List.cons.injEq, writes.tree]

/-- An infinity is written as a name, and a negative one as two. -/
theorem exists_item_infinite {x : Number} (number : x.isNaN = false) (infinite : x.isFinite = false)
    (gapValid : GapValid gap) (commaValid : ∀ g ∈ comma, GapValid g) (restValid : rest.Valid after)
    (follows : Follows (commaText comma ++ (rest.text ++ after))) :
    ∃ items, WritesItem printable h (.literal (.number x)) gap comma rest items after := by
  have most : x.isInfinite = true := by
    simp only [Number.isNaN, Number.isFinite, decide_eq_false_iff_not,
      Nat.not_lt] at number infinite
    exact decide_eq_true (Nat.le_antisymm number infinite)
  have lost : (Argument.literal (.number x)).isReadBack printable = false := by
    rw [Argument.isReadBack, infinite]
  have inf := valid_ident isName_inf follows
  cases sign : x.isNegative with
  | false =>
    have text : (Argument.literal (.number x)).render h printable = utf8 "inf" := by
      show x.render = _
      simp [Number.render, number, sign, Number.renderMagnitude, most]
    refine ⟨.item gap (.ident (utf8 "inf")) comma rest,
      Writes.item ⟨inf, ?_, ?_⟩ gapValid commaValid restValid⟩
    · rw [Phrase.text, text]
    · simp [Phrase.tree, lost]
  | true =>
    have text : (Argument.literal (.number x)).render h printable = ascii '-' :: utf8 "inf" := by
      show x.render = _
      simp [Number.render, number, sign, Number.renderMagnitude, most]
    refine ⟨.item gap (.ident [ascii '-']) none (.item [] (.ident (utf8 "inf")) comma rest), ?_, ?_,
      ?_⟩
    · rw [Items.Valid, Items.Valid]
      refine ⟨gapValid, ?_, by simp, by simp [GapValid], inf, commaValid, restValid⟩
      rw [Phrase.Valid]
      exact ⟨Or.inr ⟨by simp, rfl, rfl⟩, rfl, fun _ => rfl⟩
    · simp [Items.text, Phrase.text, text, commaText]
    · simp [Items.trees, Phrase.tree, lost]

theorem follows_close (after : Bytes) :
    Follows (commaText none ++ ((Items.close []).text ++ after)) :=
  ⟨ascii ')', after, by simp [commaText, Items.text], Or.inr rfl⟩

theorem follows_comma (rest : Items) (after : Bytes) :
    Follows (commaText (some []) ++ (rest.text ++ after)) :=
  ⟨ascii ',', rest.text ++ after, by simp [commaText], Or.inl rfl⟩

mutual

theorem exists_item (standard : PrintsAscii printable) :
    ∀ (a : Argument) (gap : Gap) (comma : Option Gap) (rest : Items) (after : Bytes), a.Lexical →
    GapValid gap → (∀ g ∈ comma, GapValid g) → rest.Valid after →
    Follows (commaText comma ++ (rest.text ++ after)) →
    ∃ items, WritesItem printable h a gap comma rest items after
  | .call name args, gap, comma, rest, after, lexical, gapValid, commaValid, restValid,
      follows => by
    rw [Argument.Lexical] at lexical
    obtain ⟨items, valid, text, trees⟩ :=
      exists_items standard args [] (commaText comma ++ (rest.text ++ after)) lexical.2
      (by simp [GapValid])
    refine ⟨.item gap (.call name items) comma rest,
      Writes.item ⟨?_, ?_, ?_⟩ gapValid commaValid restValid⟩
    · rw [Phrase.Valid]
      exact ⟨lexical.1.before (by decide) (by decide) _, valid⟩
    · rw [Phrase.text, text, Argument.render, Argument.callText]
      simp
    · rw [Phrase.tree, Argument.isReadBack, ← trees]
      simp
  | .ident name, gap, comma, rest, after, lexical, gapValid, commaValid, restValid, follows => by
    rw [Argument.Lexical] at lexical
    refine ⟨.item gap (.ident name) comma rest,
      Writes.item ⟨valid_ident lexical follows, ?_, ?_⟩ gapValid commaValid restValid⟩
    · rw [Phrase.text, Argument.render]
    · simp [Phrase.tree, Argument.isReadBack]
  | .literal (.string s), gap, comma, rest, after, _, gapValid, commaValid, restValid, _ => by
    obtain ⟨phrase, writes⟩ :=
      exists_phrase_string h standard s (commaText comma ++ (rest.text ++ after))
    exact ⟨_, writes.item gapValid commaValid restValid⟩
  | .literal (.number x), gap, comma, rest, after, lexical, gapValid, commaValid, restValid,
      follows => by
    rw [Argument.Lexical] at lexical
    cases finite : x.isFinite with
    | true =>
      obtain ⟨phrase, writes⟩ := exists_phrase_finite h finite follows
      exact ⟨_, writes.item gapValid commaValid restValid⟩
    | false => exact exists_item_infinite h lexical finite gapValid commaValid restValid follows

theorem exists_items (standard : PrintsAscii printable) :
    ∀ (args : List Argument) (gap : Gap) (after : Bytes), Argument.AreLexical args → GapValid gap →
    ∃ items : Items, items.Valid after ∧
      items.text = gapText gap ++ (Bytes.join (utf8 ", ") (Argument.renderAll h printable args) ++
        [ascii ')']) ∧
      (items.trees = args ↔ Argument.areReadBack printable args = true)
  | [], gap, after, _, gapValid => by
    refine ⟨.close gap, ?_, ?_, ?_⟩
    · rw [Items.Valid]
      exact gapValid
    · rw [Items.text]
      rfl
    · simp [Items.trees, Argument.areReadBack]
  | a :: args, gap, after, lexical, gapValid => by
    rw [Argument.AreLexical] at lexical
    obtain ⟨later, laterValid, laterText, laterTrees⟩ :=
      exists_items standard args [.blank (ascii ' ')] after lexical.2
      (by simp [GapValid, Filler.Valid]; decide)
    cases args with
    | nil =>
      obtain ⟨items, valid, text, trees⟩ :=
        exists_item standard a gap none (.close []) after lexical.1 gapValid (by simp)
        (by simp [Items.Valid, GapValid]) (follows_close after)
      refine ⟨items, valid, ?_, ?_⟩
      · rw [text]
        simp [Items.text, commaText, Argument.renderAll, join_one]
      · rw [trees]
        simp [Items.trees, Argument.areReadBack]
    | cons b more =>
      obtain ⟨items, valid, text, trees⟩ :=
        exists_item standard a gap (some []) later after lexical.1 gapValid
        (by simp [GapValid]) laterValid (follows_comma later after)
      refine ⟨items, valid, ?_, ?_⟩
      · rw [text, laterText]
        simp only [commaText, gapText_nil, gapText_cons, Filler.text, Argument.renderAll, join_more]
        simp [show utf8 ", " = [ascii ',', ascii ' '] by rfl]
      · rw [trees, laterTrees]
        simp only [Argument.areReadBack, Bool.and_eq_true]

end

theorem exists_statement (standard : PrintsAscii printable) {inv : Invocation}
    (lexical : inv.Lexical) {gap : Gap} (gapValid : GapValid gap) (after : Bytes) :
    ∃ first : Statement, first.Valid after ∧ first.text = gapText gap ++ inv.render h printable ∧
      (first.tree = inv ↔ Argument.areReadBack printable inv.args = true) := by
  obtain ⟨items, valid, text, trees⟩ :=
    exists_items h standard inv.args [] after lexical.2 (by simp [GapValid])
  refine ⟨⟨gap, inv.name, items⟩, ⟨gapValid, lexical.1.before (by decide) (by decide) _, valid⟩, ?_,
    ?_⟩
  · simp [Statement.text, text, Invocation.render, Argument.callText]
  · rw [← trees, Statement.tree]
    obtain ⟨name, args⟩ := inv
    simp

theorem exists_derivation_written (standard : PrintsAscii printable) (p : Program) (gap : Gap)
    (lexical : ∀ inv ∈ p, inv.Lexical) (gapValid : GapValid gap) :
    ∃ d : Derivation, d.Valid ∧ d.text = gapText gap ++ Bytes.join (utf8 "\n")
      (p.map (Invocation.render h · printable)) ∧
      (d.program = p ↔ p.isReadBack printable = true) := by
  induction p generalizing gap with
  | nil =>
    refine ⟨.finish gap none, ⟨gapValid, by simp⟩, ?_, ?_⟩
    · simp [Derivation.text, Bytes.join]
    · simp [Derivation.program, Program.isReadBack]
  | cons inv p ih =>
    have here := lexical inv List.mem_cons_self
    cases p with
    | nil =>
      obtain ⟨first, valid, text, tree⟩ := exists_statement h standard here gapValid []
      refine ⟨.statement first (.finish [] none), ⟨valid, by simp [Derivation.Valid, GapValid]⟩, ?_,
        ?_⟩
      · simp [Derivation.text, text, join_one]
      · simp [Derivation.program, Program.isReadBack, tree]
    | cons other more =>
      obtain ⟨later, laterValid, laterText, laterProgram⟩ := ih [.blank Bytes.newline]
        (fun other held => lexical other (List.mem_cons_of_mem inv held))
          (by simp [GapValid, Filler.Valid]; decide)
      obtain ⟨first, valid, text, tree⟩ := exists_statement h standard here gapValid later.text
      refine ⟨.statement first later, ⟨valid, laterValid⟩, ?_, ?_⟩
      · rw [Derivation.text, text, laterText]
        simp only [List.map_cons, join_more]
        simp [gapText, Filler.text, show utf8 "\n" = [Bytes.newline] by rfl]
      · rw [Derivation.program, List.cons.injEq, tree, laterProgram]
        simp [Program.isReadBack]

end Writing

end Grammar

/-- A program that was read is written as a text that is read again. What is read is the same
program exactly if no string of it is written with an escape that strings do not know, and no number
of it is infinite. Beyond ASCII, any characters may be the printable ones. -/
theorem written_program_read_again (printable : Nat → Bool) (standard : PrintsAscii printable)
    (text : Bytes) (p : Program) (h : Heap) (accepted : Program.parse text = .ok p) :
    ∃ q, Program.parse (Bytes.join (utf8 "\n") (p.map (Invocation.render h · printable))) = .ok q ∧
      (q = p ↔ p.isReadBack printable = true) := by
  obtain ⟨d, valid, rfl, rfl⟩ := (parse_eq_iff text p).mp accepted
  obtain ⟨written, writtenValid, same, back⟩ :=
    Grammar.exists_derivation_written h standard d.program [] valid.lexical
      (by simp [Grammar.GapValid])
  exact ⟨written.program, (parse_eq_iff _ _).mpr ⟨written, writtenValid, same, rfl⟩, back⟩

def mixedCall : Invocation :=
  ⟨utf8 "f", [.literal (.string (utf8 "\"\té")), .literal (.number (.ofRatio true 5 10)),
    .call (utf8 "+") [.ident (utf8 "x")]]⟩

theorem written_program_read_again_mixed :
    Program.parse (utf8 "f(\"\\\"\té\" -0.50,+(x,))") = .ok [mixedCall] ∧
    Program.parse (Bytes.join (utf8 "\n") ([mixedCall].map (Invocation.render Heap.empty))) =
      .ok [mixedCall] := by
  have parsed : Program.parse (utf8 "f(\"\\\"\té\" -0.50,+(x,))") = .ok [mixedCall] :=
    (parse_eq_ok_iff _ _).mpr (by decide +kernel)
  obtain ⟨q, read, same⟩ :=
    written_program_read_again isPrintable printsAscii_isPrintable _ _ Heap.empty parsed
  rw [same.mpr (by decide +kernel)] at read
  exact ⟨parsed, read⟩

/-- A bell is written with an escape that strings do not know, and read as the letter of the
escape. -/
theorem bell_read_as_letter :
    Program.parse (utf8 "f(\"\x07\")") = .ok [⟨utf8 "f", [.literal (.string [7])]⟩] ∧
    Program.parse (Bytes.join (utf8 "\n")
      ([⟨utf8 "f", [.literal (.string [7])]⟩].map (Invocation.render Heap.empty))) =
      .ok [⟨utf8 "f", [.literal (.string [97])]⟩] := by
  have text : Bytes.join (utf8 "\n")
      ([⟨utf8 "f", [.literal (.string [7])]⟩].map (Invocation.render Heap.empty)) =
      utf8 "f(\"\\a\")" := by
    decide +kernel
  rw [text, parse_eq_ok_iff, parse_eq_ok_iff]
  decide +kernel

end CallScript
