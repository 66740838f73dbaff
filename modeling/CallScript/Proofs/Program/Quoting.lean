import CallScript.Text.Quoted
import CallScript.Proofs.Text.Trimming
import CallScript.Proofs.Program.Lexemes

/- Quoted text read as a string. What stands between the quotes can always be read, one piece after
   the other. It is read as the text that was quoted exactly when every character of it is written
   as itself or with an escape that strings know: newlines, tabs and carriage returns, but no other
   control character, and no stray byte. -/
namespace CallScript

/-- Whether a character is read back from what quoting writes for it. -/
def Glyph.isReadBack (printable : Nat → Bool) (g : Glyph) : Bool :=
  g.code.any fun code => printable code || [9, 10, 13].contains code

def Bytes.isReadBack (printable : Nat → Bool) (s : Bytes) : Bool :=
  (Glyph.ofText s).all (Glyph.isReadBack printable)

/-- What all editions of the character tables say of the first characters. -/
def PrintsAscii (printable : Nat → Bool) : Prop :=
  ∀ code < 128, printable code = (decide (32 ≤ code) && decide (code ≤ 126))

namespace Glyph

theorem toUInt8_eq {n : Nat} {c : UInt8} (same : n = c.toNat) : n.toUInt8 = c := by
  rw [same]
  exact UInt8.ofNat_toNat

theorem isContinuation_iff {d : UInt8} :
    isContinuation d = true ↔ 128 ≤ d.toNat ∧ d.toNat ≤ 191 := by
  simp [isContinuation, UInt8.le_iff_toNat_le]

theorem within_iff {range : UInt8 × UInt8} {d : UInt8} :
    within range d = true ↔ range.1.toNat ≤ d.toNat ∧ d.toNat ≤ range.2.toNat := by
  simp [within, UInt8.le_iff_toNat_le]

theorem encode_two {c d : UInt8} (lead : 0xc2 ≤ c.toNat ∧ c.toNat ≤ 0xdf)
    (follows : isContinuation d = true) :
    encode (c.toNat % 32 * 64 + d.toNat % 64) = [c, d] := by
  rw [isContinuation_iff] at follows
  unfold encode
  rw [if_neg (by omega), if_pos (by omega), toUInt8_eq (c := c) (by omega),
    toUInt8_eq (c := d) (by omega)]

theorem encode_three {c d e : UInt8} (lead : 0xe0 ≤ c.toNat ∧ c.toNat ≤ 0xef)
    (second : within (second3 c) d = true) (follows : isContinuation e = true) :
    encode (c.toNat % 16 * 4096 + d.toNat % 64 * 64 + e.toNat % 64) = [c, d, e] := by
  rw [isContinuation_iff] at follows
  have range : 128 ≤ d.toNat ∧ d.toNat ≤ 191 ∧ (c.toNat = 0xe0 → 160 ≤ d.toNat) := by
    rw [within_iff, second3] at second
    split at second
    · simp at second
      omega
    · rename_i other
      have : c.toNat ≠ 0xe0 := fun same => other (UInt8.toNat_inj.mp same)
      split at second <;> simp at second <;> omega
  unfold encode
  rw [if_neg (by omega), if_neg (by omega), if_pos (by omega), toUInt8_eq (c := c) (by omega),
    toUInt8_eq (c := d) (by omega), toUInt8_eq (c := e) (by omega)]

theorem encode_four {c d e f : UInt8} (lead : 0xf0 ≤ c.toNat ∧ c.toNat ≤ 0xf4)
    (second : within (second4 c) d = true) (third : isContinuation e = true)
    (follows : isContinuation f = true) :
    encode (c.toNat % 8 * 262144 + d.toNat % 64 * 4096 + e.toNat % 64 * 64 + f.toNat % 64) =
      [c, d, e, f] := by
  rw [isContinuation_iff] at third follows
  have range : 128 ≤ d.toNat ∧ d.toNat ≤ 191 ∧ (c.toNat = 0xf0 → 144 ≤ d.toNat) := by
    rw [within_iff, second4] at second
    split at second
    · simp at second
      omega
    · rename_i other
      have : c.toNat ≠ 0xf0 := fun same => other (UInt8.toNat_inj.mp same)
      split at second <;> simp at second <;> omega
  unfold encode
  rw [if_neg (by omega), if_neg (by omega), if_neg (by omega), toUInt8_eq (c := c) (by omega),
    toUInt8_eq (c := d) (by omega), toUInt8_eq (c := e) (by omega), toUInt8_eq (c := f) (by omega)]

theorem first_cases (c : UInt8) (rest : Bytes) :
    first c rest = ⟨[c], none⟩ ∨ ∃ code, first c rest = ⟨encode code, some code⟩ := by
  unfold first
  split
  · rename_i low
    have small : c.toNat < 128 := low
    exact Or.inr ⟨c.toNat, by simp [encode, small]⟩
  · split
    · rename_i lead
      have lead : 0xc2 ≤ c.toNat ∧ c.toNat ≤ 0xdf := by simpa [UInt8.le_iff_toNat_le] using lead
      split
      · split
        · rename_i follows
          exact Or.inr ⟨_, by rw [encode_two lead follows]⟩
        · exact Or.inl rfl
      · exact Or.inl rfl
    · split
      · rename_i lead
        have lead : 0xe0 ≤ c.toNat ∧ c.toNat ≤ 0xef := by simpa [UInt8.le_iff_toNat_le] using lead
        split
        · split
          · rename_i follows
            rw [Bool.and_eq_true] at follows
            exact Or.inr ⟨_, by rw [encode_three lead follows.1 follows.2]⟩
          · exact Or.inl rfl
        · exact Or.inl rfl
      · split
        · rename_i lead
          have lead : 0xf0 ≤ c.toNat ∧ c.toNat ≤ 0xf4 := by simpa [UInt8.le_iff_toNat_le] using lead
          split
          · split
            · rename_i follows
              simp only [Bool.and_eq_true] at follows
              exact Or.inr ⟨_, by rw [encode_four lead follows.1.1 follows.1.2 follows.2]⟩
            · exact Or.inl rfl
          · exact Or.inl rfl
        · exact Or.inl rfl

end Glyph

theorem printsAscii_isPrintable : PrintsAscii isPrintable := by
  unfold PrintsAscii
  decide +kernel

namespace Grammar

/-- Pieces for what is written of some bytes. They are read as these bytes if `faithful`, and as
others if not. -/
structure Spells (pieces : List StringPart) (written bytes : Bytes) (faithful : Bool) : Prop where
  valid : ∀ p ∈ pieces, p.Valid
  text : pieces.flatMap StringPart.text = written
  same : faithful = true → pieces.map StringPart.byte = bytes
  apart : faithful = false → ∀ a b, pieces.map StringPart.byte ++ a ≠ bytes ++ b

theorem spells_plain {bytes : Bytes} (plain : ∀ c ∈ bytes, c ≠ 34 ∧ c ≠ 92) :
    Spells (bytes.map .plain) bytes bytes true := by
  refine ⟨?_, ?_, ?_, by simp⟩
  · intro p held
    obtain ⟨c, member, rfl⟩ := List.mem_map.mp held
    exact plain c member
  · induction bytes with
    | nil => rfl
    | cons c rest ih =>
      rw [List.map_cons, List.flatMap_cons, ih fun d held => plain d (List.mem_cons_of_mem c held)]
      rfl
  · intro _
    rw [List.map_map]
    exact List.map_id bytes

theorem hex_plain (width n : Nat) : ∀ c ∈ Bytes.hex width n, c ≠ 34 ∧ c ≠ 92 := by
  have digit : ∀ d < 16, Bytes.hexDigit d ≠ 34 ∧ Bytes.hexDigit d ≠ 92 := by decide
  induction width generalizing n with
  | zero => simp [Bytes.hex]
  | succ width ih =>
    intro c held
    rw [Bytes.hex, List.mem_append, List.mem_singleton] at held
    rcases held with held | rfl
    · exact ih _ c held
    · exact digit _ (Nat.mod_lt n (by decide))

/-- An escape that strings do not know is read as its letter. -/
theorem spells_letter {letter c : UInt8} (other : (StringPart.escaped letter).byte ≠ c)
    {tail : Bytes} (plain : ∀ c ∈ tail, c ≠ 34 ∧ c ≠ 92) (more : Bytes) :
    Spells (.escaped letter :: tail.map .plain) (92 :: letter :: tail) (c :: more) false := by
  have rest := spells_plain plain
  refine ⟨?_, ?_, by simp, ?_⟩
  · intro p held
    rcases List.mem_cons.mp held with rfl | held
    · trivial
    · exact rest.valid p held
  · rw [List.flatMap_cons, rest.text]
    rfl
  · intro _ a b same
    exact other (List.cons.inj same).1

theorem spells_known {letter c : UInt8} (known : (StringPart.escaped letter).byte = c) :
    Spells [.escaped letter] [92, letter] [c] true := by
  refine ⟨by simp [StringPart.Valid], rfl, ?_, by simp⟩
  intro _
  rw [List.map_singleton, known]

theorem letter_byte {code : Nat} {letter : UInt8} (lettered : escapeLetter? code = some letter)
    (unknown : code ≠ 9 ∧ code ≠ 10 ∧ code ≠ 13) :
    97 ≤ (StringPart.escaped letter).byte.toNat ∧ (StringPart.escaped letter).byte.toNat ≤ 122 := by
  unfold escapeLetter? at lettered
  split at lettered
  all_goals cases lettered
  · decide
  · decide
  · omega
  · omega
  · decide
  · decide
  · omega

variable {printable : Nat → Bool}

theorem exists_spelling_control (standard : PrintsAscii printable) {c : UInt8}
    (control : c.toNat < 32 ∨ c.toNat = 127) :
    ∃ pieces, Spells pieces (quoteCode printable 34 c.toNat) [c]
      (Glyph.isReadBack printable ⟨[c], some c.toNat⟩) := by
  have unprinted : printable c.toNat = false := by
    rw [standard c.toNat (by omega)]
    simp
    omega
  simp only [Glyph.isReadBack, Option.any_some, unprinted, Bool.false_or]
  unfold quoteCode
  rw [if_neg (by simp; omega), unprinted, if_neg (by simp)]
  by_cases known : c.toNat = 9 ∨ c.toNat = 10 ∨ c.toNat = 13
  · rw [show [9, 10, 13].contains c.toNat = true by simp; omega]
    rcases known with same | same | same
    all_goals
      rw [same, ← Glyph.toUInt8_eq same.symm]
      exact ⟨_, spells_known rfl⟩
  · rw [show [9, 10, 13].contains c.toNat = false by simp; omega]
    cases lettered : escapeLetter? c.toNat with
    | some letter =>
      refine ⟨_, spells_letter (fun same => ?_) (by simp) []⟩
      have := letter_byte lettered (by omega)
      rw [same] at this
      omega
    | none =>
      simp only [if_pos
        (show (decide (c.toNat < 0x20) || decide (c.toNat = 0x7f)) = true by simp; omega)]
      refine ⟨_, spells_letter ?_ (hex_plain _ _) []⟩
      rintro rfl
      exact absurd control (by decide)

theorem exists_spelling_low (standard : PrintsAscii printable) {c : UInt8} (low : c < 0x80) :
    ∃ pieces, Spells pieces (quoteCode printable 34 c.toNat) [c]
      (Glyph.isReadBack printable ⟨[c], some c.toNat⟩) := by
  have small : c.toNat < 128 := low
  by_cases control : c.toNat < 32 ∨ c.toNat = 127
  · exact exists_spelling_control standard control
  have printed : printable c.toNat = true := by
    rw [standard c.toNat small]
    simp
    omega
  simp only [Glyph.isReadBack, Option.any_some, printed, Bool.true_or]
  unfold quoteCode
  split
  · rename_i mark
    have mark : c.toNat = 34 ∨ c.toNat = 92 := by simpa using mark
    rw [Glyph.toUInt8_eq rfl]
    refine ⟨_, spells_known ?_⟩
    rcases mark with mark | mark
    · rw [← Glyph.toUInt8_eq mark.symm]
      rfl
    · rw [← Glyph.toUInt8_eq mark.symm]
      rfl
  · rename_i plain
    have plain : c.toNat ≠ 34 ∧ c.toNat ≠ 92 := by simpa using plain
    rw [show Glyph.encode c.toNat = [c] by simp [Glyph.encode, small]]
    refine ⟨_, spells_plain fun d held => ?_⟩
    rw [List.mem_singleton.mp held]
    exact ⟨fun same => plain.1 (by rw [same]; rfl), fun same => plain.2 (by rw [same]; rfl)⟩

theorem exists_spelling_high {c : UInt8} (high : ¬ c < 0x80) (rest : Bytes) :
    ∃ pieces, Spells pieces (quoteGlyph printable 34 (Glyph.first c rest))
      (Glyph.first c rest).bytes ((Glyph.first c rest).isReadBack printable) := by
  obtain ⟨more, bytes, _⟩ := Glyph.first_bytes c rest
  have start : 128 ≤ c.toNat := Nat.le_of_not_lt high
  -- No escape stands for a byte beyond ASCII, so an escape is never read back here.
  have other : ∀ {letter : UInt8}, (StringPart.escaped letter).byte.toNat < 128 →
      (StringPart.escaped letter).byte ≠ c := by
    rintro letter less rfl
    omega
  unfold quoteGlyph Glyph.isReadBack
  rcases Glyph.first_cases c rest with stray | ⟨code, coded⟩
  · rw [stray]
    simp only [List.flatMap_cons, List.flatMap_nil, List.append_nil, Option.any_none]
    exact ⟨_, spells_letter (other (by decide)) (hex_plain _ _) []⟩
  · have plain := Glyph.first_high high rest
    rw [coded] at bytes plain ⊢
    dsimp only at bytes plain ⊢
    have large : 128 ≤ code := by
      apply Nat.le_of_not_lt
      intro less
      rw [Glyph.encode, if_pos less] at bytes
      have := congrArg UInt8.toNat (List.cons.inj bytes).1
      simp at this
      omega
    obtain ⟨k, rfl⟩ := Nat.exists_eq_add_of_le' large
    have unlettered : escapeLetter? (k + 128) = none := rfl
    have unlisted : [9, 10, 13].contains (k + 128) = false := by simp
    simp only [Option.any_some, unlisted, Bool.or_false]
    unfold quoteCode
    rw [if_neg (by simp)]
    cases printable (k + 128) with
    | true =>
      rw [if_pos rfl]
      refine ⟨_, spells_plain fun d held => ?_⟩
      have := UInt8.le_iff_toNat_le.mp (plain d held)
      constructor <;> rintro rfl <;> simp at this
    | false =>
      rw [unlettered, bytes]
      simp only [Bool.false_eq_true, if_false,
        if_neg (show ¬ (decide (k + 128 < 0x20) || decide (k + 128 = 0x7f)) = true by simp)]
      split
      · exact ⟨_, spells_letter (other (by decide)) (hex_plain _ _) more⟩
      · exact ⟨_, spells_letter (other (by decide)) (hex_plain _ _) more⟩

theorem exists_spelling (standard : PrintsAscii printable) (c : UInt8) (rest : Bytes) :
    ∃ pieces, Spells pieces (quoteGlyph printable 34 (Glyph.first c rest))
      (Glyph.first c rest).bytes ((Glyph.first c rest).isReadBack printable) := by
  by_cases low : c < 0x80
  · have only : Glyph.first c rest = ⟨[c], some c.toNat⟩ := by
      unfold Glyph.first
      rw [if_pos low]
    rw [only]
    exact exists_spelling_low standard low
  · exact exists_spelling_high low rest

theorem Spells.append {pieces pieces' : List StringPart} {written written' bytes bytes' : Bytes}
    {faithful faithful' : Bool} (first : Spells pieces written bytes faithful)
    (second : Spells pieces' written' bytes' faithful') :
    Spells (pieces ++ pieces') (written ++ written') (bytes ++ bytes') (faithful && faithful') := by
  refine ⟨?_, ?_, ?_, ?_⟩
  · intro p held
    rcases List.mem_append.mp held with held | held
    · exact first.valid p held
    · exact second.valid p held
  · rw [List.flatMap_append, first.text, second.text]
  · intro both
    rw [Bool.and_eq_true] at both
    rw [List.map_append, first.same both.1, second.same both.2]
  · intro either a b
    rw [List.map_append, List.append_assoc, List.append_assoc]
    cases faithful with
    | false => exact first.apart rfl _ _
    | true =>
      rw [first.same rfl, ne_eq, List.append_cancel_left_eq]
      exact second.apart either a b

theorem exists_spelling_glyphs (standard : PrintsAscii printable) {glyphs : List Glyph}
    (whole : ∀ g ∈ glyphs, ∃ c rest, g = Glyph.first c rest) :
    ∃ pieces, Spells pieces (glyphs.flatMap (quoteGlyph printable 34)) (Glyph.toText glyphs)
      (glyphs.all (Glyph.isReadBack printable)) := by
  induction glyphs with
  | nil => exact ⟨[], by simp, rfl, fun _ => rfl, by simp⟩
  | cons g glyphs ih =>
    obtain ⟨c, rest, rfl⟩ := whole g List.mem_cons_self
    obtain ⟨pieces, first⟩ := exists_spelling standard c rest
    obtain ⟨pieces', later⟩ := ih fun h held => whole h (List.mem_cons_of_mem _ held)
    exact ⟨pieces ++ pieces', first.append later⟩

/-- Quoted text is a string, and it is read as the text that was quoted exactly when every character
is read back. -/
theorem exists_pieces_quote (standard : PrintsAscii printable) (s : Bytes) :
    ∃ pieces : List StringPart, (∀ p ∈ pieces, p.Valid) ∧
    s.quote printable = ascii '"' :: (pieces.flatMap StringPart.text ++ [ascii '"']) ∧
    (pieces.map StringPart.byte = s ↔ s.isReadBack printable = true) := by
  obtain ⟨pieces, spells⟩ := exists_spelling_glyphs standard fun g (held : g ∈ Glyph.ofText s) =>
    Glyph.mem_split held
  rw [Glyph.toText_ofText] at spells
  refine ⟨pieces, spells.valid, by rw [spells.text]; rfl, ?_, spells.same⟩
  intro same
  apply Classical.byContradiction
  intro unread
  exact spells.apart (eq_false_of_ne_true unread) [] [] (by rw [same])

end Grammar
end CallScript
