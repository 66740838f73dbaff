import CallScript.Text.Blank

/- What trimming takes away. The glyphs of a text make up the text, and those that are white space
   are made of bytes that no word, operator or bracket has. -/
namespace CallScript

def Unprinted (c : UInt8) : Prop := c ≤ 32 ∨ 127 ≤ c

namespace Glyph

theorem first_bytes (c : UInt8) (rest : Bytes) :
    ∃ more, (first c rest).bytes = c :: more ∧ more = rest.take more.length := by
  unfold first
  split
  · exact ⟨[], rfl, rfl⟩
  · split
    · split
      · split
        · exact ⟨[_], rfl, rfl⟩
        · exact ⟨[], rfl, rfl⟩
      · exact ⟨[], rfl, rfl⟩
    · split
      · split
        · split
          · exact ⟨[_, _], rfl, rfl⟩
          · exact ⟨[], rfl, rfl⟩
        · exact ⟨[], rfl, rfl⟩
      · split
        · split
          · split
            · exact ⟨[_, _, _], rfl, rfl⟩
            · exact ⟨[], rfl, rfl⟩
          · exact ⟨[], rfl, rfl⟩
        · exact ⟨[], rfl, rfl⟩

theorem toText_split (skip : Nat) (s : Bytes) : toText (split skip s) = s.drop skip := by
  induction s generalizing skip with
  | nil => cases skip <;> rfl
  | cons c rest ih =>
    cases skip with
    | succ skip => exact ih skip
    | zero =>
      obtain ⟨more, bytes, taken⟩ := first_bytes c rest
      have later := ih more.length
      simp only [split, toText, List.flatMap_cons, bytes, List.length_cons, Nat.add_sub_cancel,
        List.drop_zero, List.cons_append] at later ⊢
      rw [later]
      congr 1
      conv => lhs; lhs; rw [taken]
      exact List.take_append_drop _ _

theorem toText_ofText (s : Bytes) : toText (ofText s) = s := toText_split 0 s

theorem mem_split {skip : Nat} {s : Bytes} {g : Glyph} (member : g ∈ split skip s) :
    ∃ c rest, g = first c rest := by
  induction s generalizing skip with
  | nil => cases skip <;> cases member
  | cons c rest ih =>
    cases skip with
    | succ skip => exact ih member
    | zero =>
      simp only [split, List.mem_cons] at member
      rcases member with rfl | member
      · exact ⟨c, rest, rfl⟩
      · exact ih member

theorem isContinuation_high {d : UInt8} (follows : isContinuation d = true) : 127 ≤ d := by
  simp only [isContinuation, Bool.and_eq_true, decide_eq_true_eq] at follows
  exact UInt8.le_trans (by decide) follows.1

theorem within_high {range : UInt8 × UInt8} {d : UInt8} (low : 127 ≤ range.1)
    (follows : within range d = true) : 127 ≤ d := by
  simp only [within, Bool.and_eq_true, decide_eq_true_eq] at follows
  exact UInt8.le_trans low follows.1

theorem second3_high (c : UInt8) : 127 ≤ (second3 c).1 := by
  unfold second3
  split
  · decide
  · split <;> decide

theorem second4_high (c : UInt8) : 127 ≤ (second4 c).1 := by
  unfold second4
  split
  · decide
  · split <;> decide

/-- A glyph that does not start with an ASCII character has no ASCII character in it. -/
theorem first_high {c : UInt8} (high : ¬ c < 0x80) (rest : Bytes) :
    ∀ d ∈ (first c rest).bytes, 127 ≤ d := by
  have start : 127 ≤ c := UInt8.le_trans (by decide) (UInt8.not_lt.mp high)
  have alone : ∀ d ∈ [c], 127 ≤ d := by
    intro d member
    rwa [List.mem_singleton.mp member]
  unfold first
  rw [if_neg high]
  split
  · split
    · split
      · rename_i follows
        simp [start, isContinuation_high follows]
      · exact alone
    · exact alone
  · split
    · split
      · split
        · rename_i follows
          rw [Bool.and_eq_true] at follows
          simp [start, within_high (second3_high c) follows.1, isContinuation_high follows.2]
        · exact alone
      · exact alone
    · split
      · split
        · split
          · rename_i follows
            simp only [Bool.and_eq_true] at follows
            simp [start, within_high (second4_high c) follows.1.1, isContinuation_high follows.1.2,
              isContinuation_high follows.2]
          · exact alone
        · exact alone
      · exact alone

theorem blank_unprinted {s : Bytes} {g : Glyph} (member : g ∈ ofText s) (blank : g.isBlank = true) :
    ∀ d ∈ g.bytes, Unprinted d := by
  obtain ⟨c, rest, rfl⟩ := mem_split member
  intro d held
  by_cases low : c < 0x80
  · have only : first c rest = ⟨[c], some c.toNat⟩ := by
      unfold first
      rw [if_pos low]
    rw [only] at held blank
    rw [List.mem_singleton.mp held]
    left
    have small : c.toNat < 128 := low
    simp only [isBlank, Option.any_some, isBlankCode, Bool.or_eq_true, Bool.and_eq_true,
      decide_eq_true_eq, beq_iff_eq] at blank
    show c.toNat ≤ 32
    omega
  · exact Or.inr (first_high low rest d held)

end Glyph

/-- Trimming takes away bytes at both ends that are not printable. -/
theorem Bytes.trim_between (s : Bytes) : ∃ before after, s = before ++ s.trim ++ after ∧
    (∀ c ∈ before, Unprinted c) ∧ ∀ c ∈ after, Unprinted c := by
  let glyphs := Glyph.ofText s
  let rest := glyphs.dropWhile Glyph.isBlank
  have outside : ∀ list : List Glyph, list ⊆ glyphs → (∀ g ∈ list, g.isBlank = true) →
      ∀ c ∈ Glyph.toText list, Unprinted c := by
    intro list part blank c member
    obtain ⟨g, held, inside⟩ := List.mem_flatMap.mp member
    exact Glyph.blank_unprinted (part held) (blank g held) c inside
  have first : glyphs.takeWhile Glyph.isBlank ++ rest = glyphs := List.takeWhile_append_dropWhile
  have last : (rest.reverse.dropWhile Glyph.isBlank).reverse ++
      (rest.reverse.takeWhile Glyph.isBlank).reverse = rest := by
    rw [← List.reverse_append, List.takeWhile_append_dropWhile, List.reverse_reverse]
  refine ⟨Glyph.toText (glyphs.takeWhile Glyph.isBlank),
    Glyph.toText (rest.reverse.takeWhile Glyph.isBlank).reverse, ?_, ?_, ?_⟩
  · have whole : s = Glyph.toText glyphs := (Glyph.toText_ofText s).symm
    rw [← first, ← last] at whole
    have kept : s.trim = Glyph.toText (rest.reverse.dropWhile Glyph.isBlank).reverse := rfl
    rw [kept]
    simpa only [Glyph.toText, List.flatMap_append, List.append_assoc] using whole
  · apply outside
    · exact List.takeWhile_subset _
    · exact List.all_eq_true.mp List.all_takeWhile
  · apply outside
    · intro g member
      have : g ∈ rest := List.mem_reverse.mp (List.takeWhile_subset _ (List.mem_reverse.mp member))
      exact (List.dropWhile_sublist _).subset this
    · intro g member
      exact List.all_eq_true.mp List.all_takeWhile g (List.mem_reverse.mp member)

end CallScript
