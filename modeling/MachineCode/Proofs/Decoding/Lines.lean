import MachineCode.Journal

/-! The lines of a dump. What a line says can be read back from it: the offset in front of the
colon, and behind it whether a single byte or an instruction is shown. -/
namespace MachineCode

namespace Text

theorem digit?_digitChar {d : Nat} (h : d < 16) : digit? d.digitChar = some d := by
  have hall : ∀ d < 16, digit? (Nat.digitChar d) = some d := by decide
  exact hall d h

theorem ofHexDigits?_snoc (digits : List Char) (c : Char) :
    ofHexDigits? (digits ++ [c]) =
      (ofHexDigits? digits).bind fun n => (digit? c).map (16 * n + ·) := by
  simp [ofHexDigits?, List.foldlM_append]

/-- The digits of a number are read as that number. -/
theorem ofHexDigits?_toDigits (n : Nat) : ofHexDigits? (Nat.toDigits 16 n) = some n := by
  induction n using Nat.strongRecOn with
  | ind n ih =>
    rw [Nat.toDigits_eq_if (by decide)]
    split
    case isTrue hlt => simpa [ofHexDigits?] using digit?_digitChar hlt
    case isFalse hle =>
      rw [ofHexDigits?_snoc, ih (n / 16) (by omega), digit?_digitChar (Nat.mod_lt n (by decide))]
      exact congrArg some (Nat.div_add_mod n 16)

theorem ne_of_mem_toDigits {n : Nat} {c : Char}
    (h : c ∈ Nat.toDigits 16 n) : c ≠ ' ' ∧ c ≠ ':' := by
  induction n using Nat.strongRecOn with
  | ind n ih =>
    have hdigit : ∀ {d}, c = Nat.digitChar d → c ≠ ' ' ∧ c ≠ ':' := by
      rintro d rfl
      exact ⟨Nat.digitChar_ne ' ' (by decide), Nat.digitChar_ne ':' (by decide)⟩
    rw [Nat.toDigits_eq_if (by decide)] at h
    split at h
    case isTrue => exact hdigit (List.mem_singleton.mp h)
    case isFalse hle =>
      obtain h | h := List.mem_append.mp h
      · exact ih (n / 16) (by omega) h
      · exact hdigit (List.mem_singleton.mp h)

/-- The text is neither empty nor starts with a dot. -/
def NoDot (s : String) : Prop := s.toList.head?.any (· ≠ '.')

instance (s : String) : Decidable (NoDot s) := inferInstanceAs (Decidable (_ = true))

theorem NoDot.append {s : String} (h : NoDot s) (t : String) : NoDot (s ++ t) := by
  unfold NoDot at h ⊢
  rw [String.toList_append, List.head?_append]
  cases hs : s.toList.head? with
  | none => simp [hs] at h
  | some c => simpa [hs] using h

theorem NoDot.not_dot {s : String} (h : NoDot s) (rest : List Char) :
    ¬ '.' :: rest <+: s.toList := by
  rintro ⟨more, hmore⟩
  rw [NoDot, ← hmore] at h
  cases h

end Text

namespace X64

open Text

namespace Insn

theorem noDot_mnemonic (x : Insn) : NoDot x.mnemonic := by
  obtain ⟨op, operands⟩ := x
  unfold mnemonic
  cases op with
  | alu op | shift op =>
    change NoDot op.name
    cases op <;> decide
  | sse op | packed op => exact .append (by cases op <;> decide) _
  | bitScan | cvtFloat | cmpxchg | movsx | movToXmm | movFromXmm =>
    dsimp only
    split <;> decide
  | jcc | setcc | cmov | movs | movap | ucomis | cvtFromInt => exact .append (by decide) _
  | cvtToInt => exact .append (.append (by decide) _) _
  | _ =>
    dsimp only
    decide

/-- The text of an instruction starts with its mnemonic. -/
theorem noDot_text (x : Insn) : NoDot x.text := by
  unfold text
  split
  · exact x.noDot_mnemonic
  · exact (x.noDot_mnemonic.append _).append _

end Insn

/-- The offset that a line of a dump begins with: hexadecimal digits, behind blanks and up to a
colon. -/
def lineOffset? (line : String) : Option Nat :=
  ofHexDigits? ((line.toList.dropWhile (· = ' ')).takeWhile (· ≠ ':'))

/-- What a line shows: all behind the colon and a blank. -/
def lineText (line : String) : List Char := (line.toList.dropWhile (· ≠ ':')).drop 2

/-- The line shows a single byte. -/
def IsByteLine (line : String) : Prop := ".byte ".toList <+: lineText line

namespace ListingItem

theorem toList_line (item : ListingItem) : ∃ n, item.line.toList =
    List.replicate n ' ' ++ (Nat.toDigits 16 item.offset ++ ':' :: ' ' :: item.text.toList) := by
  refine ⟨2 + (6 - (hexDigits item.offset).length), ?_⟩
  have hfront : ∀ n, ' ' :: ' ' :: List.replicate n ' ' = List.replicate (2 + n) ' ' := fun n => by
    rw [Nat.add_comm]
    rfl
  rw [← hfront]
  simp [line, padLeft, hexDigits]

/-- Each line begins with the offset of its item. -/
theorem lineOffset?_line (item : ListingItem) : lineOffset? item.line = some item.offset := by
  obtain ⟨n, hline⟩ := item.toList_line
  have hdigits : ∀ c ∈ Nat.toDigits 16 item.offset, c ≠ ' ' ∧ c ≠ ':' := fun c => ne_of_mem_toDigits
  obtain ⟨c, rest, hcons⟩ : ∃ c rest, Nat.toDigits 16 item.offset = c :: rest :=
    List.exists_cons_of_ne_nil Nat.toDigits_ne_nil
  rw [lineOffset?, hline, List.dropWhile_append_of_pos (by simp)]
  rw [hcons] at hdigits
  rw [hcons, List.cons_append, List.dropWhile_cons_of_neg (by simpa using (hdigits c (by simp)).1),
    ← List.cons_append, List.takeWhile_append_of_pos (by simpa using fun a ha => (hdigits a ha).2)]
  simp [← hcons, ofHexDigits?_toDigits]

theorem lineText_line (item : ListingItem) : lineText item.line = item.text.toList := by
  obtain ⟨n, hline⟩ := item.toList_line
  rw [lineText, hline, List.dropWhile_append_of_pos (by simp),
    List.dropWhile_append_of_pos (by simpa using fun c hc => (ne_of_mem_toDigits hc).2)]
  rfl

/-- The lines of single bytes are those of the bytes that start no instruction. -/
theorem isByteLine_line (item : ListingItem) :
    IsByteLine item.line ↔ ∃ b, item.content = .inr b := by
  rw [IsByteLine, lineText_line]
  obtain ⟨offset, d | b⟩ := item
  · have hnone := d.1.insn.noDot_text.not_dot "byte ".toList
    constructor
    · intro h
      exact absurd h hnone
    · rintro ⟨b, h⟩
      cases h
  · simp [text]

end ListingItem

end X64

end MachineCode
