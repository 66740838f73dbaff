import Mathlib.Data.List.Basic
import CallScript.Proofs.Text.Trimming

/- Texts that are made of whole characters. A character is told by its own bytes, whatever follows
   it, and only its first byte can start a character. So such a text can be taken apart between two
   characters and nowhere else, and one that lacks the last byte of a character is not such a text,
   whatever is put in its place that is one. -/
namespace CallScript

namespace Glyph

def width (c : UInt8) : Nat :=
  if c < 0x80 then 1 else if c ≤ 0xdf then 2 else if c ≤ 0xef then 3 else 4

theorem within_continuation {range : UInt8 × UInt8} {d : UInt8} (low : 0x80 ≤ range.1)
    (high : range.2 ≤ 0xbf) (follows : within range d = true) : isContinuation d = true := by
  simp only [within, isContinuation, Bool.and_eq_true, decide_eq_true_eq] at follows ⊢
  exact ⟨UInt8.le_trans low follows.1, UInt8.le_trans follows.2 high⟩

theorem second3_continuation (c : UInt8) : 0x80 ≤ (second3 c).1 ∧ (second3 c).2 ≤ 0xbf := by
  unfold second3
  split
  · decide
  · split <;> decide

theorem second4_continuation (c : UInt8) : 0x80 ≤ (second4 c).1 ∧ (second4 c).2 ≤ 0xbf := by
  unfold second4
  split
  · decide
  · split <;> decide

/-- A character that starts with a byte: how long it is, what its other bytes are, and that nothing
else tells it. -/
structure Coded (c : UInt8) (more : Bytes) (g : Glyph) : Prop where
  bytes : g.bytes = c :: more
  length : more.length + 1 = width c
  lead : isContinuation c = false
  follow : ∀ d ∈ more, isContinuation d = true
  alone : ∀ other, first c (more ++ other) = g

theorem coded_one {c : UInt8} (low : c < 0x80) (rest : Bytes) : Coded c [] (first c rest) := by
  have only : ∀ other, first c other = ⟨[c], some c.toNat⟩ := by
    intro other
    unfold first
    rw [if_pos low]
  have small : c.toNat < 128 := low
  refine ⟨by rw [only], by simp [width, low], ?_, by simp, fun other => by rw [only, only]⟩
  simp [isContinuation, UInt8.le_iff_toNat_le]
  omega

theorem coded_two {c d : UInt8} (lead : (0xc2 ≤ c && c ≤ 0xdf) = true)
    (follows : isContinuation d = true) (rest : Bytes) : Coded c [d] (first c (d :: rest)) := by
  have range : 0xc2 ≤ c.toNat ∧ c.toNat ≤ 0xdf := by simpa [UInt8.le_iff_toNat_le] using lead
  have high : ¬c < 0x80 := by
    simp [UInt8.lt_iff_toNat_lt]
    omega
  have only : ∀ other, first c (d :: other) =
      ⟨[c, d], some ((c.toNat % 32) * 64 + d.toNat % 64)⟩ := by
    intro other
    unfold first
    simp only [if_neg high, if_pos lead, if_pos follows]
  refine ⟨by rw [only], ?_, ?_, by simpa using follows,
    fun other => by rw [List.singleton_append, only, only]⟩
  · simp [width, high, UInt8.le_iff_toNat_le, range.2]
  · simp [isContinuation, UInt8.le_iff_toNat_le]
    omega

theorem coded_three {c d e : UInt8} (lead : (0xe0 ≤ c && c ≤ 0xef) = true)
    (follows : (within (second3 c) d && isContinuation e) = true) (rest : Bytes) :
    Coded c [d, e] (first c (d :: e :: rest)) := by
  have range : 0xe0 ≤ c.toNat ∧ c.toNat ≤ 0xef := by simpa [UInt8.le_iff_toNat_le] using lead
  have high : ¬c < 0x80 ∧ ¬c ≤ 0xdf := by
    simp [UInt8.lt_iff_toNat_lt, UInt8.le_iff_toNat_le]
    omega
  have only : ∀ other, first c (d :: e :: other) =
      ⟨[c, d, e], some ((c.toNat % 16) * 4096 + (d.toNat % 64) * 64 + e.toNat % 64)⟩ := by
    intro other
    unfold first
    simp only [if_neg high.1, high.2, decide_false, Bool.and_false, Bool.false_eq_true,
      if_false, if_pos lead, if_pos follows]
  rw [Bool.and_eq_true] at follows
  have second := within_continuation (second3_continuation c).1 (second3_continuation c).2 follows.1
  refine ⟨by rw [only], ?_, ?_, by simp [second, follows.2], fun other => ?_⟩
  · simp [width, high, UInt8.le_iff_toNat_le, range.2]
  · simp [isContinuation, UInt8.le_iff_toNat_le]
    omega
  · rw [List.cons_append, List.singleton_append, only, only]

theorem coded_four {c d e f : UInt8} (lead : (0xf0 ≤ c && c ≤ 0xf4) = true)
    (follows : (within (second4 c) d && isContinuation e && isContinuation f) = true)
    (rest : Bytes) : Coded c [d, e, f] (first c (d :: e :: f :: rest)) := by
  have range : 0xf0 ≤ c.toNat ∧ c.toNat ≤ 0xf4 := by simpa [UInt8.le_iff_toNat_le] using lead
  have high : ¬c < 0x80 ∧ ¬c ≤ 0xdf ∧ ¬c ≤ 0xef := by
    simp [UInt8.lt_iff_toNat_lt, UInt8.le_iff_toNat_le]
    omega
  have only : ∀ other, first c (d :: e :: f :: other) =
      ⟨[c, d, e, f], some ((c.toNat % 8) * 262144 +
      (d.toNat % 64) * 4096 + (e.toNat % 64) * 64 + f.toNat % 64)⟩ := by
    intro other
    unfold first
    simp only [if_neg high.1, high.2, decide_false, Bool.and_false, Bool.false_eq_true,
      if_false, if_pos lead, if_pos follows]
  simp only [Bool.and_eq_true] at follows
  have second :=
    within_continuation (second4_continuation c).1 (second4_continuation c).2 follows.1.1
  refine ⟨by rw [only], ?_, ?_, by simp [second, follows.1.2, follows.2], fun other => ?_⟩
  · simp [width, high]
  · simp [isContinuation, UInt8.le_iff_toNat_le]
    omega
  · simp only [List.cons_append, List.nil_append, only]

theorem first_coded {c : UInt8} {rest : Bytes} (coded : (first c rest).code.isSome = true) :
    ∃ more, Coded c more (first c rest) := by
  by_cases low : c < 0x80
  · exact ⟨[], coded_one low rest⟩
  · have cases := coded
    unfold first at cases
    rw [if_neg low] at cases
    split at cases
    · rename_i lead
      split at cases
      · split at cases
        · rename_i follows
          exact ⟨_, coded_two lead follows _⟩
        · cases cases
      · cases cases
    · split at cases
      · rename_i lead
        split at cases
        · split at cases
          · rename_i follows
            exact ⟨_, coded_three lead follows _⟩
          · cases cases
        · cases cases
      · split at cases
        · rename_i lead
          split at cases
          · split at cases
            · rename_i follows
              exact ⟨_, coded_four lead follows _⟩
            · cases cases
          · cases cases
        · cases cases

theorem split_eq (skip : Nat) (s : Bytes) : split skip s = ofText (s.drop skip) := by
  induction s generalizing skip with
  | nil => cases skip <;> rfl
  | cons c rest ih =>
    cases skip with
    | zero => rfl
    | succ skip => exact ih skip

theorem ofText_cons (c : UInt8) (rest : Bytes) :
    ofText (c :: rest) = first c rest :: ofText (rest.drop ((first c rest).bytes.length - 1)) := by
  rw [← split_eq]
  rfl

theorem ofText_coded {c : UInt8} {more : Bytes} {g : Glyph} (coded : Coded c more g)
    (rest : Bytes) : ofText (g.bytes ++ rest) = g :: ofText rest := by
  rw [coded.bytes, List.cons_append, ofText_cons, coded.alone, coded.bytes]
  simp

def IsCharacter (g : Glyph) : Prop := g.code.isSome = true ∧ ∃ c rest, g = first c rest

theorem IsCharacter.coded {g : Glyph} (character : g.IsCharacter) : ∃ c more, Coded c more g := by
  obtain ⟨coded, c, rest, rfl⟩ := character
  exact ⟨c, first_coded coded⟩

theorem ofText_toText_append {glyphs : List Glyph} (characters : ∀ g ∈ glyphs, g.IsCharacter)
    (rest : Bytes) :
    ofText (toText glyphs ++ rest) = glyphs ++ ofText rest := by
  induction glyphs with
  | nil => rfl
  | cons g others ih =>
    obtain ⟨character, characters⟩ := List.forall_mem_cons.mp characters
    obtain ⟨c, more, coded⟩ := character.coded
    simp only [toText, List.flatMap_cons, List.append_assoc] at ih ⊢
    rw [ofText_coded coded, ih characters, List.cons_append]

end Glyph

namespace Bytes

theorem characters_of_isUtf8 {s : Bytes} (whole : s.isUtf8 = true) :
    ∀ g ∈ Glyph.ofText s, g.IsCharacter :=
  fun g member => ⟨List.all_eq_true.mp whole g member, Glyph.mem_split member⟩

theorem isUtf8_toText {glyphs : List Glyph} (characters : ∀ g ∈ glyphs, g.IsCharacter) :
    (Glyph.toText glyphs).isUtf8 = true := by
  have found := Glyph.ofText_toText_append characters []
  rw [List.append_nil] at found
  rw [isUtf8, found]
  simpa [Glyph.ofText, Glyph.split] using fun g member => (characters g member).1

theorem ofText_append {s : Bytes} (whole : s.isUtf8 = true) (t : Bytes) :
    Glyph.ofText (s ++ t) = Glyph.ofText s ++ Glyph.ofText t := by
  have found := Glyph.ofText_toText_append (characters_of_isUtf8 whole) t
  rwa [Glyph.toText_ofText] at found

theorem isUtf8_append {s : Bytes} (whole : s.isUtf8 = true) (t : Bytes) :
    (s ++ t).isUtf8 = t.isUtf8 := by
  have characters : (Glyph.ofText s).all (·.code.isSome) = true := whole
  rw [isUtf8, ofText_append whole, List.all_append, characters, Bool.true_and, isUtf8]

theorem isUtf8_flatMap {α : Type} {list : List α} {f : α → Bytes}
    (each : ∀ a ∈ list, (f a).isUtf8 = true) :
    isUtf8 (list.flatMap f) = true := by
  induction list with
  | nil => rfl
  | cons a rest ih =>
    obtain ⟨first, others⟩ := List.forall_mem_cons.mp each
    rw [List.flatMap_cons, isUtf8_append first]
    exact ih others

theorem isUtf8_trim {s : Bytes} (whole : s.isUtf8 = true) : s.trim.isUtf8 = true := by
  apply isUtf8_toText
  intro g member
  have kept := (List.dropWhile_sublist _).subset (List.mem_reverse.mp member)
  exact characters_of_isUtf8 whole g ((List.dropWhile_sublist _).subset (List.mem_reverse.mp kept))

theorem exists_first {c : UInt8} {rest : Bytes} (whole : isUtf8 (c :: rest) = true) :
    ∃ more later g, Glyph.Coded c more g ∧ rest = more ++ later ∧ isUtf8 later = true := by
  have characters := characters_of_isUtf8 whole
  have text := Glyph.toText_ofText (c :: rest)
  cases glyphs : Glyph.ofText (c :: rest) with
  | nil =>
    rw [glyphs] at text
    cases text
  | cons g others =>
    rw [glyphs] at text characters
    obtain ⟨character, characters⟩ := List.forall_mem_cons.mp characters
    obtain ⟨d, more, coded⟩ := character.coded
    rw [Glyph.toText, List.flatMap_cons, coded.bytes, List.cons_append, List.cons.injEq] at text
    obtain ⟨rfl, text⟩ := text
    exact ⟨more, Glyph.toText others, g, coded, text.symm, isUtf8_toText characters⟩

theorem exists_last {s : Bytes} (some : s ≠ []) (whole : s.isUtf8 = true) :
    ∃ before c more g, Glyph.Coded c more g ∧ s = before ++ c :: more ∧ isUtf8 before = true := by
  have characters := characters_of_isUtf8 whole
  have text := Glyph.toText_ofText s
  rcases List.eq_nil_or_concat' (Glyph.ofText s) with none | ⟨others, g, glyphs⟩
  · rw [none] at text
    exact absurd text.symm some
  · rw [glyphs] at text characters
    obtain ⟨c, more, coded⟩ := (characters g (by simp)).coded
    have before : isUtf8 (Glyph.toText others) = true :=
      isUtf8_toText fun other member => characters other (by simp [member])
    simp only [Glyph.toText, List.flatMap_append, List.flatMap_singleton, coded.bytes] at text
    exact ⟨Glyph.toText others, c, more, g, coded, text.symm, before⟩

theorem isUtf8_continuation {c : UInt8} (follows : Glyph.isContinuation c = true) (rest : Bytes) :
    isUtf8 (c :: rest) = false := by
  cases whole : isUtf8 (c :: rest) with
  | false => rfl
  | true =>
    obtain ⟨more, later, g, coded, -, -⟩ := exists_first whole
    rw [coded.lead] at follows
    cases follows

/-- The first byte of a text can be taken off if it is an ASCII character, and only then. -/
theorem first_character {c : UInt8} {rest : Bytes} (whole : isUtf8 (c :: rest) = true) :
    (c < 0x80 ∧ isUtf8 [c] = true ∧ isUtf8 rest = true) ∨ (¬c < 0x80 ∧ isUtf8 rest = false) := by
  obtain ⟨more, later, g, coded, rfl, kept⟩ := exists_first whole
  have length := coded.length
  unfold Glyph.width at length
  by_cases low : c < 0x80
  · rw [if_pos low] at length
    obtain rfl : more = [] := List.length_eq_zero_iff.mp (by omega)
    have alone : isUtf8 [c] = true := by simp [isUtf8, Glyph.ofText, Glyph.split, Glyph.first, low]
    exact Or.inl ⟨low, alone, kept⟩
  · rw [if_neg low] at length
    cases more with
    | nil =>
      split at length
      · cases length
      · split at length <;> cases length
    | cons d others => exact Or.inr ⟨low, isUtf8_continuation (coded.follow d List.mem_cons_self) _⟩

/-- The last byte of a text can be taken off if it is an ASCII character. Otherwise a character
lacks it, which nothing that is put in its place makes good. -/
theorem last_character {before : Bytes} {c : UInt8} (whole : isUtf8 (before ++ [c]) = true) :
    (c < 0x80 ∧ isUtf8 [c] = true ∧ isUtf8 before = true) ∨
      (¬c < 0x80 ∧ Glyph.isContinuation c = true ∧
      ∀ after, isUtf8 after = true → isUtf8 (before ++ after) = false) := by
  obtain ⟨earlier, d, more, g, coded, text, kept⟩ := exists_last (by simp) whole
  have length := coded.length
  rcases List.eq_nil_or_concat' more with rfl | ⟨inner, e, rfl⟩
  · obtain ⟨rfl, rfl⟩ : before = earlier ∧ c = d := by simpa using List.append_inj' text rfl
    rw [isUtf8_append kept] at whole
    rcases first_character whole with ⟨low, alone, -⟩ | ⟨high, none⟩
    · exact Or.inl ⟨low, alone, kept⟩
    · cases none
  · rw [← List.cons_append, ← List.append_assoc] at text
    obtain ⟨rfl, last⟩ := List.append_inj' text rfl
    obtain rfl : c = e := by simpa using last
    have follows := coded.follow c (by simp)
    have high : ¬c < 0x80 := by
      simp only [Glyph.isContinuation, Bool.and_eq_true, decide_eq_true_eq] at follows
      exact UInt8.not_lt.mpr follows.1
    refine Or.inr ⟨high, follows, ?_⟩
    intro after ends
    rw [List.append_assoc, isUtf8_append kept, List.cons_append]
    cases whole : isUtf8 (d :: (inner ++ after)) with
    | false => rfl
    | true =>
      -- The character would go on with the first byte of what follows, which starts a character.
      obtain ⟨others, later, g', coded', parts, -⟩ := exists_first whole
      have same : others.length = inner.length + 1 := by
        have := coded'.length
        simp only [List.length_append, List.length_singleton] at length
        omega
      cases after with
      | nil =>
        have := congrArg List.length parts
        simp only [List.append_nil, List.length_append] at this
        omega
      | cons f rest =>
        have held : f ∈ others := by
          have found : (others ++ later)[inner.length]? = some f := by
            rw [← parts]
            simp
          rw [List.getElem?_append_left (by omega)] at found
          exact List.mem_of_getElem? found
        rw [isUtf8_continuation (coded'.follow f held)] at ends
        cases ends

def Boundary (s : Bytes) (position : Nat) : Prop :=
  ∃ count ≤ (Glyph.ofText s).length, (Glyph.toText ((Glyph.ofText s).take count)).length = position

instance (s : Bytes) (position : Nat) : Decidable (s.Boundary position) :=
  inferInstanceAs (Decidable (∃ count ≤ (Glyph.ofText s).length, _))

theorem boundary_append {before after : Bytes} (first : before.isUtf8 = true) :
    Boundary (before ++ after) before.length := by
  refine ⟨(Glyph.ofText before).length, ?_, ?_⟩
  · simp [ofText_append first]
  · rw [ofText_append first, List.take_left, Glyph.toText_ofText]

theorem Boundary.parts {s : Bytes} {position : Nat} (boundary : s.Boundary position)
    (whole : s.isUtf8 = true) :
    ∃ before after, s = before ++ after ∧ before.length = position ∧ isUtf8 before = true ∧
      isUtf8 after = true := by
  obtain ⟨count, -, rfl⟩ := boundary
  have characters := characters_of_isUtf8 whole
  have text := Glyph.toText_ofText s
  rw [← List.take_append_drop count (Glyph.ofText s), Glyph.toText, List.flatMap_append] at text
  exact ⟨_, _, text.symm, rfl, isUtf8_toText fun g member =>
    characters g (List.mem_of_mem_take member),
    isUtf8_toText fun g member => characters g (List.mem_of_mem_drop member)⟩

end Bytes

end CallScript
