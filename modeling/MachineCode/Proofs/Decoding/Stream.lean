import MachineCode.Proofs.Decoding.Forms

/-! Streams of instructions. Bytes that are instructions one after the other are cut into just
these. -/
namespace MachineCode.X64

/-- The instructions with their offsets and lengths, from `offset` on. -/
def stream : (offset : Nat) → List (List UInt8 × Decoded) → List (Nat × Decoded × Nat)
  | _, [] => []
  | offset, (bytes, i) :: rest => (offset, i, bytes.length) :: stream (offset + bytes.length) rest

theorem Decodes.ne_nil {bytes : List UInt8} {i : Decoded} (h : Decodes bytes i) : bytes ≠ [] := by
  rintro rfl
  have hnil : decode [] = some (i, 0) := h []
  cases hnil

theorem listingFrom_skip (offset : Nat) (skipped rest : List UInt8) :
    listingFrom offset skipped.length (skipped ++ rest) =
      listingFrom (offset + skipped.length) 0 rest := by
  induction skipped generalizing offset with
  | nil => rfl
  | cons b skipped ih =>
    simp only [List.length_cons, List.cons_append, listingFrom]
    rw [ih, Nat.add_assoc, Nat.add_comm 1]

theorem listingFrom_decodes {offset : Nat} {bytes rest : List UInt8} {i : Decoded}
    (h : Decodes bytes i) : listingFrom offset 0 (bytes ++ rest) =
      ⟨offset, .inl (i, bytes.length)⟩ :: listingFrom (offset + bytes.length) 0 rest := by
  cases bytes with
  | nil => exact absurd rfl h.ne_nil
  | cons b bytes =>
    have hd := h rest
    simp only [List.cons_append] at hd ⊢
    rw [listingFrom, hd]
    simp only [List.length_cons, Nat.add_sub_cancel]
    rw [listingFrom_skip, Nat.add_assoc, Nat.add_comm 1]

theorem listingFrom_flatten {offset : Nat} {parts : List (List UInt8 × Decoded)}
    (h : ∀ x ∈ parts, Decodes x.1 x.2) : listingFrom offset 0 (parts.map Prod.fst).flatten =
      (stream offset parts).map fun x => ⟨x.1, .inl x.2⟩ := by
  induction parts generalizing offset with
  | nil => rfl
  | cons x parts ih =>
    obtain ⟨bytes, i⟩ := x
    rw [List.map_cons, List.flatten_cons, listingFrom_decodes (h (bytes, i) (by simp)),
      ih fun y hy => h y (by simp [hy])]
    rfl

/-- The entry that the item is of a buffer cut into instructions. -/
def ListingItem.listed? (item : ListingItem) : Option (Nat × Decoded × Nat) :=
  match item.content with
  | .inl (i, n) => some (item.offset, i, n)
  | .inr _ => none

theorem decodeFrom_eq_mapM (offset skip : Nat) (bytes : List UInt8) :
    decodeFrom offset skip bytes = (listingFrom offset skip bytes).mapM ListingItem.listed? := by
  induction bytes generalizing offset skip with
  | nil => cases skip <;> rfl
  | cons b bytes ih =>
    cases skip with
    | succ skip => exact ih (offset + 1) skip
    | zero =>
      rw [decodeFrom, listingFrom]
      cases decode (b :: bytes) with
      | none => rfl
      | some d => simp [ih, List.mapM_cons, ListingItem.listed?]

/-- A buffer is cut into instructions if its listing shows nothing else. -/
theorem decodeAll_eq_mapM (bytes : List UInt8) :
    decodeAll bytes = (listing bytes).mapM ListingItem.listed? := decodeFrom_eq_mapM 0 0 bytes

/-- The bytes of instructions that stand one after the other decode to these. -/
theorem decodeAll_flatten {parts : List (List UInt8 × Decoded)} (h : ∀ x ∈ parts, Decodes x.1 x.2) :
    decodeAll (parts.map Prod.fst).flatten = some (stream 0 parts) := by
  rw [decodeAll_eq_mapM, listing, listingFrom_flatten h, List.mapM_map]
  exact List.mapM_pure.trans (by simp)

end MachineCode.X64
