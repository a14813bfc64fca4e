import MachineCode.Proofs.Numbers
import Mathlib.Tactic.Common
import MachineCode.CodeBuffer

/-! Code as a sequence of pieces: bytes that never change, and fields that refer to labels. The
offsets of the labels decide what the fields hold, and nothing else does. -/
namespace MachineCode

open CodeBuffer

/-- Bytes of the field. -/
def ReferenceKind.width : ReferenceKind → Nat
  | .rel8 => 1
  | .rel32 | .table _ => 4

inductive Piece where
  | bytes (bs : List UInt8)
  | ref (l : Label) (kind : ReferenceKind)
  deriving DecidableEq, Repr

namespace Piece

def length : Piece → Nat
  | bytes bs => bs.length
  | ref _ kind => kind.width

/-- The length of a sequence. -/
def total (ps : List Piece) : Nat := (ps.map length).sum

/-- What the field of a site holds, for the offset of its label if that is bound. -/
def fieldBytes (site : ReferenceSite) (target : Option Nat) : List UInt8 :=
  match target with
  | none => placeholder site.kind
  | some target =>
    match field site target with
    | .ok bs => bs
    | .error _ => placeholder site.kind

/-- The bytes of a sequence that starts at `offset`. -/
def render (env : Label → Option Nat) : (offset : Nat) → List Piece → List UInt8
  | _, [] => []
  | offset, bytes bs :: rest => bs ++ render env (offset + bs.length) rest
  | offset, ref l kind :: rest =>
    fieldBytes ⟨offset, kind⟩ (env l) ++ render env (offset + kind.width) rest

/-- The sites of a label in a sequence that starts at `offset`. -/
def sites (l : Label) : (offset : Nat) → List Piece → List ReferenceSite
  | _, [] => []
  | offset, bytes bs :: rest => sites l (offset + bs.length) rest
  | offset, ref m kind :: rest =>
    (if m = l then [⟨offset, kind⟩] else []) ++ sites l (offset + kind.width) rest

@[simp] theorem total_nil : total [] = 0 := rfl

@[simp] theorem total_cons (p : Piece) (ps : List Piece) :
    total (p :: ps) = p.length + total ps := by
  simp [total]

@[simp] theorem total_append (ps qs : List Piece) : total (ps ++ qs) = total ps + total qs := by
  simp [total]

@[simp] theorem length_placeholder (kind : ReferenceKind) :
    (placeholder kind).length = kind.width := by
  cases kind <;> rfl

theorem length_field {site : ReferenceSite} {target : Nat} {bs : List UInt8}
    (h : field site target = .ok bs) : bs.length = site.kind.width := by
  obtain ⟨offset, kind⟩ := site
  cases kind with
  | rel8 =>
    simp only [field] at h
    split at h <;> cases h
    rfl
  | rel32 =>
    simp only [field] at h
    cases hd : displacement32 (target - (offset + 4)) with
    | ok d => rw [hd] at h; cases h; rfl
    | error e => rw [hd] at h; cases h
  | table base =>
    simp only [field] at h
    cases hd : displacement32 (target - base) with
    | ok d => rw [hd] at h; cases h; rfl
    | error e => rw [hd] at h; cases h

@[simp] theorem length_fieldBytes (site : ReferenceSite) (target : Option Nat) :
    (fieldBytes site target).length = site.kind.width := by
  unfold fieldBytes
  split
  · exact length_placeholder _
  · split
    · exact length_field (by assumption)
    · exact length_placeholder _

@[simp] theorem length_render (env : Label → Option Nat) (offset : Nat) (ps : List Piece) :
    (render env offset ps).length = total ps := by
  induction ps generalizing offset with
  | nil => rfl
  | cons p ps ih => cases p <;> simp [render, length, ih]

theorem render_append (env : Label → Option Nat) (offset : Nat) (ps qs : List Piece) :
    render env offset (ps ++ qs) = render env offset ps ++ render env (offset + total ps) qs := by
  induction ps generalizing offset with
  | nil => rfl
  | cons p ps ih => cases p <;> simp [render, length, ih, Nat.add_assoc]

theorem sites_append (l : Label) (offset : Nat) (ps qs : List Piece) :
    sites l offset (ps ++ qs) = sites l offset ps ++ sites l (offset + total ps) qs := by
  induction ps generalizing offset with
  | nil => rfl
  | cons p ps ih => cases p <;> simp [sites, length, ih, Nat.add_assoc]

end Piece

namespace CodeBuffer

open Piece

/-- Overwriting a part with bytes of the same number replaces that part. -/
theorem toList_overwrite {code : Array UInt8} {before old after new : List UInt8}
    (hcode : code.toList = before ++ (old ++ after)) (hlen : new.length = old.length) :
    (overwrite code before.length new).toList = before ++ (new ++ after) := by
  induction new generalizing code before old with
  | nil =>
    have hold : old = [] := List.eq_nil_of_length_eq_zero hlen.symm
    simpa [overwrite, hold] using hcode
  | cons x new ih =>
    cases old with
    | nil => simp at hlen
    | cons y old =>
      have hset : (code.setIfInBounds before.length x).toList =
          (before ++ [x]) ++ (old ++ after) := by
        simp [hcode]
      have h := ih hset (by simpa using hlen)
      simpa [overwrite] using h

end CodeBuffer

end MachineCode
