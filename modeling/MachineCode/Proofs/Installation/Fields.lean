import MachineCode.Method

/-! Fields of an image and what is written into them. Fields that do not overlap hold what has been
written into each, and the bytes outside of them stay. -/
namespace MachineCode

open CodeBuffer

/-- The bytes from `offset` on are `bs`. -/
def BytesAt (image : Array UInt8) (offset : Nat) (bs : List UInt8) : Prop :=
  ∀ k < bs.length, image[offset + k]? = bs[k]?

namespace BytesAt

variable {image image' : Array UInt8} {offset : Nat} {as bs rest : List UInt8}

/-- Bytes stay when they are not written to. -/
theorem congr (h : BytesAt image offset bs)
    (hsame : ∀ i, offset ≤ i → i < offset + bs.length → image'[i]? = image[i]?) :
    BytesAt image' offset bs := by
  intro k hk
  rw [hsame (offset + k) (by omega) (by omega), h k hk]

theorem append_iff : BytesAt image offset (as ++ bs) ↔
    BytesAt image offset as ∧ BytesAt image (offset + as.length) bs := by
  constructor
  · intro h
    constructor
    · intro k hk
      rw [h k (by rw [List.length_append]; omega), List.getElem?_append_left hk]
    · intro k hk
      rw [Nat.add_assoc, h (as.length + k) (by rw [List.length_append]; omega),
        List.getElem?_append_right (Nat.le_add_right _ _), Nat.add_sub_cancel_left]
  · rintro ⟨ha, hb⟩ k hk
    rw [List.length_append] at hk
    obtain hlt | hle := Nat.lt_or_ge k as.length
    · rw [List.getElem?_append_left hlt, ha k hlt]
    · have hk' := hb (k - as.length) (by omega)
      have hindex : offset + as.length + (k - as.length) = offset + k := by omega
      rw [List.getElem?_append_right hle, ← hk', hindex]

theorem of_drop (h : image.toList.drop offset = bs ++ rest) : BytesAt image offset bs := by
  intro k hk
  rw [← Array.getElem?_toList, ← List.getElem?_drop, h, List.getElem?_append_left hk]

/-- The image from `offset` on begins with these bytes. -/
theorem drop (h : BytesAt image offset bs) : ∃ rest, image.toList.drop offset = bs ++ rest := by
  have hprefix : bs <+: image.toList.drop offset := by
    refine List.prefix_iff_getElem?.mpr fun k hk => ?_
    rw [List.getElem?_drop, Array.getElem?_toList, h k hk, List.getElem?_eq_getElem hk]
  obtain ⟨rest, hrest⟩ := hprefix
  exact ⟨rest, hrest.symm⟩

/-- What is written can be read, as far as there is room. -/
theorem overwrite (h : offset + bs.length ≤ image.size) :
    BytesAt (overwrite image offset bs) offset bs := by
  induction bs generalizing image offset with
  | nil => exact fun k hk => absurd hk (Nat.not_lt_zero k)
  | cons b bs ih =>
    rw [List.length_cons] at h
    intro k hk
    cases k with
    | zero =>
      rw [CodeBuffer.overwrite, getElem?_overwrite_of_outside (.inl (by omega)), Nat.add_zero,
        Array.getElem?_setIfInBounds_self_of_lt (by omega), List.getElem?_cons_zero]
    | succ k =>
      have hsize : offset + 1 + bs.length ≤ (image.setIfInBounds offset b).size := by
        rw [Array.size_setIfInBounds]
        omega
      have hk' := ih hsize k (Nat.lt_of_succ_lt_succ hk)
      rw [CodeBuffer.overwrite, List.getElem?_cons_succ, ← hk']
      congr 1
      omega

end BytesAt

/-! ### Writing fields -/

section Fields

variable {α : Type} {offset width : α → Nat} {content : α → Except Error (List UInt8)}
  {image image' : Array UInt8} {x : α} {xs : List α}

/-- Write the contents of fields one after the other. -/
def fill (offset : α → Nat) (content : α → Except Error (List UInt8)) (image : Array UInt8)
    (xs : List α) : Except Error (Array UInt8) :=
  xs.foldlM (fun image x => return overwrite image (offset x) (← content x)) image

theorem fill_cons_eq_ok : fill offset content image (x :: xs) = .ok image' ↔
    ∃ bs, content x = .ok bs ∧
      fill offset content (overwrite image (offset x) bs) xs = .ok image' := by
  rw [fill, List.foldlM_cons]
  cases content x with
  | error e =>
    constructor
    · intro h
      cases h
    · rintro ⟨bs, h, -⟩
      cases h
  | ok bs =>
    constructor
    · exact fun h => ⟨bs, rfl, h⟩
    · rintro ⟨_, h, h'⟩
      cases h
      exact h'

/-- Fields can be filled when each of them has a content. -/
theorem exists_fill_iff : (∃ image', fill offset content image xs = .ok image') ↔
    ∀ x ∈ xs, ∃ bs, content x = .ok bs := by
  induction xs generalizing image with
  | nil => exact ⟨by simp, fun _ => ⟨image, rfl⟩⟩
  | cons x xs ih =>
    simp only [fill_cons_eq_ok, List.forall_mem_cons]
    constructor
    · rintro ⟨image', bs, hbs, h⟩
      exact ⟨⟨bs, hbs⟩, ih.mp ⟨image', h⟩⟩
    · rintro ⟨⟨bs, hbs⟩, h⟩
      obtain ⟨image', h'⟩ := ih.mpr h
      exact ⟨image', bs, hbs, h'⟩

/-- Filling fails as one of the contents does. -/
theorem error_of_fill {e : Error} (h : fill offset content image xs = .error e) :
    ∃ x ∈ xs, content x = .error e := by
  induction xs generalizing image with
  | nil => cases h
  | cons x xs ih =>
    cases hx : content x with
    | error e' =>
      rw [fill, List.foldlM_cons, hx] at h
      cases h
      exact ⟨x, by simp, hx⟩
    | ok bs =>
      rw [fill, List.foldlM_cons, hx] at h
      obtain ⟨y, hy, hcontent⟩ := ih h
      exact ⟨y, by simp [hy], hcontent⟩

theorem size_fill (h : fill offset content image xs = .ok image') : image'.size = image.size := by
  induction xs generalizing image with
  | nil =>
    cases h
    rfl
  | cons x xs ih =>
    obtain ⟨bs, -, h⟩ := fill_cons_eq_ok.mp h
    rw [ih h, size_overwrite]

/-- Bytes outside of all fields stay. -/
theorem getElem?_fill_of_outside {i : Nat}
    (hlength : ∀ x ∈ xs, ∀ bs, content x = .ok bs → bs.length = width x)
    (hi : ∀ x ∈ xs, i < offset x ∨ offset x + width x ≤ i)
    (h : fill offset content image xs = .ok image') : image'[i]? = image[i]? := by
  induction xs generalizing image with
  | nil =>
    cases h
    rfl
  | cons x xs ih =>
    obtain ⟨bs, hbs, h⟩ := fill_cons_eq_ok.mp h
    have hx := hi x (by simp)
    rw [← hlength x (by simp) bs hbs] at hx
    rw [ih (fun y hy => hlength y (by simp [hy])) (fun y hy => hi y (by simp [hy])) h,
      getElem?_overwrite_of_outside hx]

/-- Fields that do not overlap hold their contents in the end. -/
theorem bytesAt_fill (hlength : ∀ x ∈ xs, ∀ bs, content x = .ok bs → bs.length = width x)
    (hinside : ∀ x ∈ xs, offset x + width x ≤ image.size)
    (hapart : xs.Pairwise fun x y => offset x + width x ≤ offset y)
    (h : fill offset content image xs = .ok image') :
    ∀ x ∈ xs, ∃ bs, content x = .ok bs ∧ BytesAt image' (offset x) bs := by
  induction xs generalizing image with
  | nil => simp
  | cons x xs ih =>
    obtain ⟨bs, hbs, h⟩ := fill_cons_eq_ok.mp h
    obtain ⟨hx, hapart⟩ := List.pairwise_cons.mp hapart
    have hwidth := hlength x (by simp) bs hbs
    have hlength' : ∀ y ∈ xs, ∀ bs, content y = .ok bs → bs.length = width y := fun y hy =>
      hlength y (by simp [hy])
    refine List.forall_mem_cons.mpr ⟨⟨bs, hbs, ?_⟩, ?_⟩
    · -- The later fields lie behind this one.
      refine (BytesAt.overwrite (hwidth ▸ hinside x (by simp))).congr fun i hlow hhigh => ?_
      exact getElem?_fill_of_outside hlength' (fun y hy => .inl (by have := hx y hy; omega)) h
    · exact ih hlength'
        (fun y hy => by rw [size_overwrite]; exact hinside y (by simp [hy])) hapart h

end Fields

end MachineCode
