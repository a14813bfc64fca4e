import Mathlib.Logic.Function.Basic
import MachineCode.Proofs.Execution.Expansions
import MachineCode.Proofs.Execution.Moving

/-! Arguments of calls. They are moved to their registers one after the other; no move may change
what a later one reads, if the call is to find the values that the arguments have had in front of
all moves. -/
namespace MachineCode

open X64 Lower Machine Chunk

/-! ### Arguments and their registers -/

/-- The operands that are passed. -/
def Expansion.arguments (x : Expansion) (args : List Nat) : List Operand :=
  args.filterMap (x.operands[·]?)

/-- The floats among the operands, or the others. -/
def ofFile (floating : Bool) (os : List Operand) : List Operand :=
  os.filter (·.kind.isFloating == floating)

/-- The registers for floats and those for other arguments. -/
def registerFiles (ints : List Gpr) (floats : List Xmm) : Bool → List Register
  | true => floats.map Xmm.register
  | false => ints.map Gpr.register

/-- Each argument with its register, the next one of its file. Arguments are left out when there is
none. -/
def assignments : List Operand → (Bool → List Register) → List (Operand × Register)
  | [], _ => []
  | o :: os, files =>
    match files o.kind.isFloating with
    | [] => assignments os files
    | r :: rest => (o, r) :: assignments os (Function.update files o.kind.isFloating rest)

/-- The moves in front of a call. -/
def Expansion.passes (x : Expansion) (args : List Nat) : List (Operand × Register) :=
  assignments (x.arguments args) (registerFiles callArguments floatCallArguments)

/-- The move of the first argument to its register does not change what the second one is read
from. -/
def Spares (frame : Frame) (p q : Operand × Register) : Prop :=
  p.1.register? = some p.2 ∨
    (∀ g, Gpr.ofRegister? p.2 = some g → ¬ q.1.Uses frame g) ∧
    ∀ x, Xmm.ofRegister? p.2 = some x → xmm? q.1 ≠ some x

section Assignments

variable {o : Operand} {os : List Operand} {files : Bool → List Register} {r : Register}
  {k : Bool} {i : Nat}

theorem assignments_cons {rest : List Register} (h : files o.kind.isFloating = r :: rest) :
    assignments (o :: os) files = (o, r) ::
      assignments os (Function.update files o.kind.isFloating rest) := by
  rw [assignments, h]

theorem mem_of_assignments (h : (o, r) ∈ assignments os files) : o ∈ os ∧ ∃ k, r ∈ files k := by
  induction os generalizing files with
  | nil => cases h
  | cons o' os ih =>
    unfold assignments at h
    split at h
    · obtain ⟨ho, hr⟩ := ih h
      exact ⟨List.mem_cons_of_mem _ ho, hr⟩
    · rename_i r' rest hfile
      obtain h | h := List.mem_cons.mp h
      · cases h
        exact ⟨List.mem_cons_self, _, hfile ▸ List.mem_cons_self⟩
      · obtain ⟨ho, k, hr⟩ := ih h
        refine ⟨List.mem_cons_of_mem _ ho, k, ?_⟩
        by_cases hk : k = o'.kind.isFloating
        · subst hk
          rw [Function.update_self] at hr
          exact hfile ▸ List.mem_cons_of_mem _ hr
        · rwa [Function.update_of_ne hk] at hr

/-- The next argument of a file receives the next register of the file. -/
theorem mem_assignments (ho : (ofFile k os)[i]? = some o) (hr : (files k)[i]? = some r) :
    (o, r) ∈ assignments os files := by
  induction os generalizing i files with
  | nil => cases ho
  | cons o' os ih =>
    by_cases hk : o'.kind.isFloating = k
    · subst hk
      rw [ofFile, List.filter_cons_of_pos (by simp)] at ho
      cases hfile : files o'.kind.isFloating with
      | nil =>
        rw [hfile] at hr
        cases hr
      | cons r' rest =>
        rw [assignments_cons hfile]
        rw [hfile] at hr
        cases i with
        | zero =>
          cases ho
          cases hr
          exact List.mem_cons_self
        | succ i => exact List.mem_cons_of_mem _ (ih ho (by rwa [Function.update_self]))
    · rw [ofFile, List.filter_cons_of_neg (by simpa using hk)] at ho
      unfold assignments
      split
      · exact ih ho hr
      · exact List.mem_cons_of_mem _ (ih ho (by rwa [Function.update_of_ne (Ne.symm hk)]))

/-- No register is assigned twice. -/
theorem nodup_assignments (hfiles : ∀ k, (files k).Nodup)
    (hapart : ∀ k k', k ≠ k' → ∀ r ∈ files k, r ∉ files k') :
    ((assignments os files).map Prod.snd).Nodup := by
  induction os generalizing files with
  | nil => exact .nil
  | cons o os ih =>
    cases hfile : files o.kind.isFloating with
    | nil =>
      rw [assignments, hfile]
      exact ih hfiles hapart
    | cons r rest =>
      have hnodup := hfile ▸ hfiles o.kind.isFloating
      -- What is left are fewer registers of the same files.
      have hsub :
          ∀ k, (Function.update files o.kind.isFloating rest k).Sublist (files k) := fun k => by
        by_cases hk : k = o.kind.isFloating
        · subst hk
          rw [Function.update_self, hfile]
          exact List.sublist_cons_self ..
        · simp only [Function.update_of_ne hk, List.Sublist.refl]
      rw [assignments_cons hfile, List.map_cons, List.nodup_cons]
      refine ⟨fun hmem => ?_, ih (fun k => (hfiles k).sublist (hsub k)) fun k k' hne r hr hr' =>
        hapart k k' hne r ((hsub k).subset hr) ((hsub k').subset hr')⟩
      obtain ⟨⟨o', r'⟩, hp, rfl⟩ := List.mem_map.mp hmem
      obtain ⟨-, k, hr⟩ := mem_of_assignments hp
      by_cases hk : k = o.kind.isFloating
      · subst hk
        rw [Function.update_self] at hr
        exact (List.nodup_cons.mp hnodup).1 hr
      · exact hapart k _ hk r' ((hsub k).subset hr) (hfile ▸ List.mem_cons_self)

end Assignments

end MachineCode

namespace MachineCode.Lower

open X64 Machine Chunk

variable {S : Site} {C : Context} {frame : Frame} {o : Operand} {r : Register}
  {moves : List (Operand × Register)}

/-! ### One move -/

/-- The value of the operand is in the register, which is all that has changed; nothing has if it
was there. -/
structure PassedTo (S : Site) (frame : Frame) (o : Operand) (r : Register)
    (s c : Machine) : Prop where
  holds : ∃ v, S.value? frame s o = some v ∧ S.Holds frame s (.reg r o.kind) v c
  keeps : s.Keeps (Gpr.ofRegister? r = some ·) (Xmm.ofRegister? r = some ·) (fun _ => False) c
  same : o.register? = some r → c = s

theorem computes_passTo (hexists : (Operand.reg r o.kind).Exists)
    (hfile : o.kind.isFloating = true → Gpr.ofRegister? r = none) :
    Computes S C (mov o (.reg r o.kind) false) (fun s => S.Readable s ∧ S.Accessible C.frame s o)
      fun _ => PassedTo S C.frame o r := by
  by_cases hself : o.register? = some r
  · obtain ⟨kind, rfl⟩ : ∃ kind, o = .reg r kind := by
      cases o with
      | reg r' kind =>
        cases hself
        exact ⟨kind, rfl⟩
      | stack | const | addr => cases hself
    rw [mov_self]
    refine runs_pure () fun s c _ hc => ?_
    obtain ⟨rfl, -⟩ := hc
    obtain ⟨v, hv, hdelivers⟩ := Site.delivers_self hexists
    exact ⟨⟨v, hv, hdelivers.holds⟩, .refl _, fun _ => rfl⟩
  · by_cases hdouble : ∃ g, gpr? o = some g ∧ o.kind = .double
    · -- A general register is not moved to a floating one.
      obtain ⟨g, hg, hkind⟩ := hdouble
      have hnone := hfile (by rw [hkind]; rfl)
      cases o with
      | reg source kind =>
        have hg : Gpr.ofRegister? source = some g := hg
        have hne : source ≠ r := fun h => hself (congrArg some h)
        have hmov : mov (.reg source kind) (.reg r kind) false =
            unhandled s!"{kind} move {source} -> {r} across files" := by
          simp [mov, inData, registerToRegister, hg, hnone, hne]
        rw [Operand.kind, hmov]
        exact computes_of_fails (fails_unhandled _)
      | stack | const | addr => cases hg
    · have hkind : (Operand.reg r o.kind).kind = o.kind := rfl
      refine (computes_mov hkind hexists (fun g hg h => hdouble ⟨g, hg, h⟩) fun l hl => by
        cases hl).mono fun s _ hs =>
        ⟨canMove_reg hs.1 hs.2, ?_⟩
      rintro _ c ⟨v, hv, hdelivers, -⟩
      refine ⟨⟨v, hv, hdelivers.holds⟩, hdelivers.keeps.mono ?_ (fun _ => id) ?_,
        fun h => absurd h hself⟩
      · rintro g (hg | ⟨hreg, -⟩)
        · exact hg
        · cases hreg
      · rintro a ⟨l, hl, -⟩
        cases hl

/-- A later operand is read as before. -/
theorem PassedTo.value? {s m : Machine} {q : Operand × Register} (h : PassedTo S frame o r s m)
    (hspares : Spares frame (o, r) q) : S.value? frame m q.1 = S.value? frame s q.1 := by
  obtain hself | ⟨hgprs, hxmms⟩ := hspares
  · rw [h.same hself]
  · exact Site.value?_keeps h.keeps (fun g hg hr => hgprs g hr hg)
      (fun x hx hr => hxmms x hr hx) fun _ _ _ _ => id

theorem PassedTo.accessible {s m : Machine} {q : Operand × Register} (h : PassedTo S frame o r s m)
    (hspares : Spares frame (o, r) q)
    (hq : S.Accessible frame s q.1) : S.Accessible frame m q.1 := by
  obtain hself | ⟨hgprs, -⟩ := hspares
  · rwa [h.same hself]
  · exact hq.keeps h.keeps fun g hg hr => hgprs g hr hg

/-! ### All moves -/

/-- Each argument is in its register, with the value that it has had in front of the moves. -/
structure Passed (S : Site) (frame : Frame) (moves : List (Operand × Register))
    (s c : Machine) : Prop where
  holds : ∀ p ∈ moves, ∃ v, S.value? frame s p.1 = some v ∧ S.Holds frame s (.reg p.2 p.1.kind) v c
  keeps : s.Keeps (fun g => ∃ p ∈ moves, Gpr.ofRegister? p.2 = some g)
    (fun x => ∃ p ∈ moves, Xmm.ofRegister? p.2 = some x)
    (fun _ => False) c

theorem passed_nil (s : Machine) : Passed S frame [] s s :=
  ⟨fun _ hp => absurd hp List.not_mem_nil, .refl s⟩

theorem eq_of_ofRegister?_gpr {r r' : Register} {g : Gpr} (h : Gpr.ofRegister? r = some g)
    (h' : Gpr.ofRegister? r' = some g) :
    r = r' := (eq_register_of_gpr h).trans (eq_register_of_gpr h').symm

theorem eq_of_ofRegister?_xmm {r r' : Register} {x : Xmm} (h : Xmm.ofRegister? r = some x)
    (h' : Xmm.ofRegister? r' = some x) :
    r = r' := (eq_register_of_xmm h).trans (eq_register_of_xmm h').symm

/-- A move in front that spares the later ones, and that they leave alone. -/
theorem Passed.cons {s m c : Machine} (hfirst : PassedTo S frame o r s m)
    (hrest : Passed S frame moves m c) (hspares : ∀ q ∈ moves, Spares frame (o, r) q)
    (hfresh : r ∉ moves.map Prod.snd) :
    Passed S frame ((o, r) :: moves) s c where
  holds := by
    have hother : ∀ q ∈ moves, r ≠ q.2 := fun q hq h => hfresh (h ▸ List.mem_map_of_mem hq)
    rintro p hp
    obtain rfl | hp := List.mem_cons.mp hp
    · obtain ⟨v, hv, hholds⟩ := hfirst.holds
      refine ⟨v, hv, ⟨fun g hg => ?_, fun x hx => ?_, nofun⟩⟩
      · rw [hrest.keeps.gprs g fun ⟨q, hq, hg'⟩ => hother q hq (eq_of_ofRegister?_gpr hg hg'),
          hholds.gpr g hg]
      · rw [hrest.keeps.xmms x fun ⟨q, hq, hx'⟩ => hother q hq (eq_of_ofRegister?_xmm hx hx'),
          hholds.xmm x hx]
    · obtain ⟨v, hv, hholds⟩ := hrest.holds p hp
      exact ⟨v, (hfirst.value? (hspares p hp)).symm.trans hv, hholds.gpr, hholds.xmm, nofun⟩
  keeps := by
    refine .trans (hfirst.keeps.mono ?_ ?_ fun _ => id) (hrest.keeps.mono ?_ ?_ fun _ => id)
    · exact fun g hg => ⟨(o, r), List.mem_cons_self, hg⟩
    · exact fun x hx => ⟨(o, r), List.mem_cons_self, hx⟩
    · exact fun g ⟨q, hq, hg⟩ => ⟨q, List.mem_cons_of_mem _ hq, hg⟩
    · exact fun x ⟨q, hq, hx⟩ => ⟨q, List.mem_cons_of_mem _ hq, hx⟩

/-- What moves need to read the arguments. -/
def CanPass (S : Site) (frame : Frame) (moves : List (Operand × Register)) (s : Machine) : Prop :=
  S.Readable s ∧ ∀ p ∈ moves, S.Accessible frame s p.1

/-- All arguments have been moved, and there have been registers for them. -/
def AllPassed (S : Site) (frame : Frame) (os : List Operand)
    (files : Bool → List Register) : Assertion := fun s c =>
  Passed S frame (assignments os files) s c ∧ ∀ k, (ofFile k os).length ≤ (files k).length

/-- An argument has a register of its file, and that register is the one with the same index. -/
theorem AllPassed.exists_register {os : List Operand} {files : Bool → List Register} {k : Bool}
    {i : Nat} {s c : Machine} (h : AllPassed S frame os files s c)
    (ho : (ofFile k os)[i]? = some o) :
    ∃ r v, (files k)[i]? = some r ∧ S.value? frame s o = some v ∧
    S.Holds frame s (.reg r o.kind) v c := by
  have hi : i < (files k).length := Nat.lt_of_lt_of_le (List.getElem?_eq_some_iff.mp ho).1 (h.2 k)
  have hr : (files k)[i]? = some (files k)[i] := List.getElem?_eq_getElem hi
  obtain ⟨v, hv, hholds⟩ := h.1.holds _ (mem_assignments ho hr)
  exact ⟨_, v, hr, hv, hholds⟩

/-- One move in front of the others, for which the register is used up. -/
theorem computes_passFirst {os : List Operand} {files files' : Bool → List Register}
    {rest : List Register} {x : Lower Unit} (hfile : files o.kind.isFloating = r :: rest)
    (hfiles : files' = Function.update files o.kind.isFloating rest)
    (hexists : (Operand.reg r o.kind).Exists)
    (hgeneral : o.kind.isFloating = true → Gpr.ofRegister? r = none)
    (hspares : (assignments (o :: os) files).Pairwise (Spares C.frame))
    (hnodup : ((assignments (o :: os) files).map Prod.snd).Nodup)
    (hx : (assignments os files').Pairwise (Spares C.frame) →
      ((assignments os files').map Prod.snd).Nodup → Computes S C x
        (CanPass S C.frame (assignments os files')) fun _ => AllPassed S C.frame os files') :
    Computes S C (mov o (.reg r o.kind) false >>= fun _ => x)
      (CanPass S C.frame (assignments (o :: os) files))
      fun _ => AllPassed S C.frame (o :: os) files := by
  unfold AllPassed
  rw [assignments_cons hfile, ← hfiles] at hspares hnodup ⊢
  obtain ⟨hhead, hspares⟩ := List.pairwise_cons.mp hspares
  obtain ⟨hfresh, hnodup⟩ := List.nodup_cons.mp hnodup
  have hfirst :
      Computes S C (mov o (.reg r o.kind) false)
        (CanPass S C.frame ((o, r) :: assignments os files'))
      fun _ => PassedTo S C.frame o r :=
    (computes_passTo hexists hgeneral).mono fun s _ hs =>
      ⟨⟨hs.1, hs.2 (o, r) List.mem_cons_self⟩, fun _ _ => id⟩
  refine hfirst.bind (fun _ => hx hspares hnodup) ?_
  rintro s _ m ⟨hreadable, haccessible⟩ hpassed
  refine ⟨⟨hreadable.keeps hpassed.keeps, fun p hp => hpassed.accessible (hhead p hp)
    (haccessible p (List.mem_cons_of_mem _ hp))⟩, fun _ c hrest =>
      ⟨.cons hpassed hrest.1 hhead hfresh, fun k => ?_⟩⟩
  have hfits := hrest.2 k
  rw [hfiles] at hfits
  by_cases hk : o.kind.isFloating = k
  · subst hk
    rw [Function.update_self] at hfits
    rw [ofFile, List.filter_cons_of_pos (by simp), hfile]
    exact Nat.succ_le_succ hfits
  · rw [Function.update_of_ne (Ne.symm hk)] at hfits
    rwa [ofFile, List.filter_cons_of_neg (by simpa using hk)]

/-- From any state the moves leave each argument in its register. There are registers for all of
them. -/
theorem computes_passArguments {x : Expansion} {count : Nat} {args : List Nat} {ints : List Gpr}
    {floats : List Xmm}
    (hspares : (assignments (x.arguments args) (registerFiles ints floats)).Pairwise
      (Spares C.frame))
    (hnodup : ((assignments (x.arguments args) (registerFiles ints floats)).map Prod.snd).Nodup) :
    Computes S C (passArguments x count args ints floats)
      (CanPass S C.frame (assignments (x.arguments args) (registerFiles ints floats)))
      fun _ => AllPassed S C.frame (x.arguments args) (registerFiles ints floats) := by
  induction args generalizing ints floats with
  | nil =>
    refine runs_pure () fun s c _ hc => ?_
    obtain ⟨rfl, -⟩ := hc
    exact ⟨passed_nil c, fun _ => Nat.zero_le _⟩
  | cons arg args ih =>
    unfold passArguments
    refine (finds_operand x arg).computes fun o ho => ?_
    have hargs : x.arguments (arg :: args) = o :: x.arguments args := List.filterMap_cons_some ho
    rw [hargs] at hspares hnodup ⊢
    split
    · rename_i hfloat
      cases floats with
      | nil => exact computes_of_fails (fails_unhandled _)
      | cons r floats =>
        have hfile : registerFiles ints (r :: floats) o.kind.isFloating =
            r.register :: floats.map Xmm.register := by
          rw [hfloat]; rfl
        refine computes_passFirst hfile ?_ (fun _ => .inr ⟨r, Xmm.ofRegister?_register r⟩)
          (fun _ => rfl) hspares hnodup ih
        funext k
        cases k <;> simp [hfloat, registerFiles]
    · rename_i hfloat
      rw [Bool.not_eq_true] at hfloat
      cases ints with
      | nil => exact computes_of_fails (fails_unhandled _)
      | cons r ints =>
        have hfile : registerFiles (r :: ints) floats o.kind.isFloating =
            r.register :: ints.map Gpr.register := by
          rw [hfloat]; rfl
        refine computes_passFirst hfile ?_ (fun _ => .inl ⟨r, Gpr.ofRegister?_register r⟩)
          (absurd · (by simp [hfloat]))
          hspares hnodup ih
        funext k
        cases k <;> simp [hfloat, registerFiles]

/-! ### Calls -/

/-- Code that leads to the call, and the call with its row. -/
def ReachesCall (S : Site) (target : CallTarget) (A : Machine → Prop) (Q : Assertion) :
    Site.Claim := fun pre new final =>
  ∃ (front rest : List Chunk) (info : Option DebugInfo), new =
    front ++ .instr .call (some (.call target)) :: rest ∧
    S.Leads (fun s c => c = s ∧ A s) Q noExit pre front final ∧
    ⟨extent (pre ++ front) + Instr.call.encode.length, Instr.call.encode.length,
      some target, info, true⟩ ∈
      final.tables.callSites

theorem nodup_passes (x : Expansion) (args : List Nat) : ((x.passes args).map Prod.snd).Nodup := by
  refine nodup_assignments (fun k => ?_) fun k k' hne r hr hr' => ?_
  · cases k <;> decide
  · revert r hne
    cases k <;> cases k' <;> decide

/-- Moves and the call behind them. What comes next does not matter. -/
theorem lays_passedCall {x : Expansion} {target : CallTarget} {args : List Nat}
    {info : Option DebugInfo} {rest : Unit → Lower Unit}
    (hspares : (x.passes args).Pairwise (Spares C.frame)) (hrest : ∀ u, Does C .anything (rest u)) :
    Lays S C (passArguments x args.length args callArguments floatCallArguments >>= fun _ =>
      directCall target info >>= rest) fun _ =>
        ReachesCall S target (CanPass S C.frame (x.passes args))
        (AllPassed S C.frame (x.arguments args)
          (registerFiles callArguments floatCallArguments)) := by
  have hmoves :
      Computes S C (passArguments x args.length args callArguments floatCallArguments) _ _ :=
    computes_passArguments hspares (nodup_passes x args)
  refine (Lays.bind hmoves fun _ => (lays_directCall target info).bind fun u => (hrest u).lays).mono
    fun _ pre new post final hhosts h => ?_
  obtain ⟨_, front, _, rfl, hleads, _, _, after, rfl, ⟨ns, rest, hns, rfl, hsite⟩, -⟩ := h
  have hpadding :
      S.Hosts (pre ++ front ++
        (ns.map .nop ++ (.instr .call (some (.call target)) :: (rest ++ after ++ post))))
      final := by simpa using hhosts
  refine ⟨front ++ ns.map .nop, rest ++ after, info, by simp,
    hleads.append (Site.leads_padding hns hpadding), ?_⟩
  rwa [← List.append_assoc]

theorem lays_templateCall {x : Expansion} {target : CallTarget} {args : List Nat}
    {result : Option Nat} {info : Option DebugInfo}
    (hspares : (x.passes args).Pairwise (Spares C.frame)) :
    Lays S C (templateCall x target args result info) fun _ =>
      ReachesCall S target (CanPass S C.frame (x.passes args))
        (AllPassed S C.frame (x.arguments args)
          (registerFiles callArguments floatCallArguments)) := by
  unfold templateCall
  refine lays_passedCall hspares fun _ => ?_
  split
  · exact does_pure ()
  · exact (finds_operand x _).lowers.andThen fun _ => does_mov (Effect.open_anything.receives _ _)

end MachineCode.Lower

/-! ### Installed code -/

namespace MachineCode

open X64 Lower Machine Chunk

/-- The target of a call, and the indices of what it passes. -/
def MicroOp.call? : MicroOp → Option (CallTarget × List Nat)
  | callStub stub args _ => some (.stub stub, args)
  | callRuntime target args _ _ => some (.runtime target, args)
  | _ => none

theorem MicroOp.microOp_of_call? {x : Expansion} {op : MicroOp} {target : CallTarget}
    {args : List Nat} (h : op.call? = some (target, args)) :
    ∃ result info, microOp x op = templateCall x target args result info := by
  cases op with
  | callStub stub args' result =>
    cases h
    exact ⟨result, _, rfl⟩
  | callRuntime target' args' result useInfoAfter =>
    cases h
    exact ⟨result, _, rfl⟩
  | _ => cases h

variable {I : Installation} {x : Expansion} {op : MicroOp} {target : CallTarget}
  {args : List Nat} {start stop : Nat}

/-- A call finds the values that its arguments have had in front of the first move, integers and
references in the integer argument registers and floats in the others, in their order, if no move
changes what a later argument is read from: the register that it fills is neither that argument nor
part of its address, or holds its own argument anyway. -/
theorem exists_run_to_call (hop : op.call? = some (target, args))
    (hcode : I.HasMicro x op start stop)
    (hspares : (x.passes args).Pairwise (Spares I.source.frame)) :
    ∃ site ∈ I.method.tables.callSites, site.target = some target ∧
    site.direct = true ∧ site.pc ≤ stop ∧
      ∃ pc, site.pc = pc + site.size ∧ start ≤ pc ∧
      ∀ machine : Machine, machine.Loaded I.base I.image →
        machine.rip = I.base + BitVec.ofNat 64 start → I.site.Readable machine →
        (∀ o ∈ x.arguments args, I.site.Accessible I.source.frame machine o) →
        ∃ machine' disp, machine.RunsTo (I.base + BitVec.ofNat 64 pc) machine' ∧
          machine'.fetch machine'.rip = some (.call (.rel disp), site.size) ∧
          (∀ (i : Nat) o, (ofFile false (x.arguments args))[i]? = some o →
            ∃ g v, callArguments[i]? = some g ∧
            I.site.value? I.source.frame machine o = some v ∧
            low (machine'.reg g) o.kind.width = low v o.kind.width) ∧
          ∀ (i : Nat) o, (ofFile true (x.arguments args))[i]? = some o →
          ∃ y v, floatCallArguments[i]? = some y ∧
            I.site.value? I.source.frame machine o = some v ∧
            low ((machine'.xmmReg y).setWidth 64) o.kind.width = low v o.kind.width := by
  obtain ⟨result, info, hmicro⟩ := MicroOp.microOp_of_call? (x := x) hop
  obtain ⟨pre, new, post, final, hhosts, hcompleted,
      ⟨front, rest, info, rfl, hleads, hsite⟩, rfl, rfl⟩ :=
    hcode.hosts (K := ReachesCall I.site target (CanPass I.site I.source.frame (x.passes args))
        (AllPassed I.site I.source.frame (x.arguments args)
          (registerFiles callArguments floatCallArguments)))
      fun C hframe _ => by
        rw [hmicro, ← hframe]
        exact lays_templateCall (hframe ▸ hspares)
  rw [List.append_assoc] at hhosts
  have hsites : I.method.tables.callSites = final.tables.callSites := by rw [hcompleted.tables]
  refine ⟨_, hsites ▸ hsite, rfl, rfl, ?_, extent (pre ++ front), rfl, by simp, ?_⟩
  · have hsize :
        (Chunk.instr .call (some (.call target))).size = Instr.call.encode.length := by simp
    simp only [extent_append, extent_cons, hsize]
    omega
  intro machine hloaded hrip hreadable haccessible
  have hcan : CanPass I.site I.source.frame (x.passes args) machine.core :=
    ⟨hreadable, fun p hp => haccessible p.1 (mem_of_assignments hp).1⟩
  obtain ⟨machine', hwalks, hend | ⟨l, p, -, hexit⟩⟩ :=
    hleads machine.core machine ⟨hloaded, hrip, rfl, hcan⟩
  · have hfront : I.site.Hosts
        (pre ++ (front ++ .instr .call (some (.call target)) :: (rest ++ post))) final := by
      simpa using hhosts
    have hrun := Installation.runsTo_of_walks hfront hwalks hend.rip
    rw [← List.append_assoc] at hfront
    obtain ⟨m, j, -, hreads, hfetch⟩ := hfront.fetch rfl rfl (hend.loaded.part _ _)
    cases hreads with
    | call _ disp =>
      refine ⟨machine', disp, hrun, hend.rip ▸ hfetch, fun i o ho => ?_, fun i o ho => ?_⟩
      · obtain ⟨r, v, hr, hv, hholds⟩ := hend.core.exists_register ho
        obtain ⟨g, hg, rfl⟩ := Option.map_eq_some_iff.mp (List.getElem?_map.symm.trans hr)
        exact ⟨g, v, hg, (Site.value?_core machine o).symm.trans hv,
          hholds.gpr g (gpr?_register g _)⟩
      · obtain ⟨r, v, hr, hv, hholds⟩ := hend.core.exists_register ho
        obtain ⟨y, hy, rfl⟩ := Option.map_eq_some_iff.mp (List.getElem?_map.symm.trans hr)
        exact ⟨y, v, hy, (Site.value?_core machine o).symm.trans hv,
          hholds.xmm y (Xmm.ofRegister?_register y)⟩
  · exact hexit.core.elim

/-- A call of a stub with three arguments. The first one is in its register already. -/
theorem exists_run_to_call_stub :
    let operands : List Operand :=
  [.reg Gpr.rdi.register .long, .reg Gpr.rax.register .int, .reg (Xmm.register ⟨3⟩) .double]
    let op : MicroOp := .callStub "stub" [0, 1, 2] none
    let machine : Machine := ((Machine.initial.setReg .rdi 1).setReg .rax 2).setXmm ⟨3⟩ 3
    ∃ (I : Installation) (x : Expansion) (start stop pc : Nat) (machine' : Machine),
      x.operands = operands ∧
      I.HasMicro x op start stop ∧
      (I.enter machine start).RunsTo (I.base + BitVec.ofNat 64 pc) machine' ∧
      (∃ disp size, machine'.fetch machine'.rip = some (.call (.rel disp), size)) ∧
      machine'.reg .rdi = 1 ∧
      low (machine'.reg .rsi) .dword = 2 ∧ (machine'.xmmReg ⟨0⟩).setWidth 64 = (3 : Word) := by
  intro operands op machine
  let target : Target := ⟨{ Options.standard with useStackBanging := false }, ⟨true, true⟩, 4096⟩
  let t : Template := ⟨"call", [op], none, 0⟩
  obtain ⟨I, -, hsource, -, hlow, hhigh⟩ := Installation.exists_installed_with target
    ⟨"test", none, .empty, [], [.template t operands none none, .ret none]⟩ 0x10000000
    ⟨fun _ => some 0x11000000, fun _ => none⟩ (by decide +kernel)
  have ht : .template t operands none none ∈ I.source.ops := by simp [hsource]
  obtain ⟨labels, start, stop, hcode⟩ := I.exists_hasMicro ht (List.mem_singleton_self op)
  let x : Expansion := ⟨t, operands, labels, none, none⟩
  have hop : op.call? = some (.stub "stub", [0, 1, 2]) := rfl
  have hmoves : x.passes [0, 1, 2] = [(.reg Gpr.rdi.register .long, Gpr.rdi.register),
      (.reg Gpr.rax.register .int, Gpr.rsi.register),
      (.reg (Xmm.register ⟨3⟩) .double, Xmm.register ⟨0⟩)] := rfl
  have hspares : (x.passes [0, 1, 2]).Pairwise (Spares I.source.frame) := by
    rw [hmoves]
    refine .cons (fun q _ => .inl rfl)
      (.cons (fun q hq => .inr ⟨fun g _ huse => ?_, fun y hy => ?_⟩)
      (List.pairwise_singleton ..))
    · obtain rfl := List.mem_singleton.mp hq
      obtain h | ⟨l, h, -⟩ := huse <;> cases h
    · cases hy
  obtain ⟨site, -, -, -, -, pc, -, -, hrun⟩ := exists_run_to_call hop hcode hspares
  have haccessible : ∀ o ∈ operands, ∀ machine, I.site.Accessible I.source.frame machine o :=
      fun o ho machine l hl => by
    obtain rfl | rfl | rfl : o = _ ∨ o = _ ∨ o = _ := by simpa [operands] using ho
    all_goals cases hl
  obtain ⟨machine', disp, hreaches, hfetch, hints, hfloats⟩ := hrun (I.enter machine start)
    (Installation.loaded_enter machine start) rfl (Site.readable_of_unprotected rfl hlow hhigh)
      fun o ho => haccessible o ho _
  obtain ⟨g₁, v₁, hg₁, hv₁, hrdi⟩ := hints 0 _ rfl
  obtain ⟨g₂, v₂, hg₂, hv₂, hrsi⟩ := hints 1 _ rfl
  obtain ⟨y, v, hy, hv, hxmm⟩ := hfloats 0 _ rfl
  cases hg₁
  cases hg₂
  cases hy
  cases hv₁
  cases hv₂
  cases hv
  exact ⟨I, x, start, stop, pc, machine', rfl, hcode, hreaches, ⟨disp, _, hfetch⟩, hrdi, hrsi, hxmm⟩

end MachineCode
