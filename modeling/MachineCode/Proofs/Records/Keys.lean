import MachineCode.Proofs.Records.Claims
import Mathlib.Data.List.Induction

/-! Keys of records. Whatever is recorded in whatever order, and whether it is refused or not, the
tables hold the rows of the records that were accepted and their keys are claimed; a record is
refused if one of these has its key. -/
namespace MachineCode

open SideTables

/-! ### Records -/

/-- Something to record in the side tables. -/
inductive SideRecord where
  | data (start patch stop dataOffset : Nat)
  | object (offset : Nat) (o : ObjectId)
  | dataObject (dataOffset : Nat) (o : ObjectId)
  | callTarget (offset : Nat) (target : CallTarget)
  | call (site : CallSite)
  | safepoint (pc : Nat) (info : DebugInfo)
  | implicitException (pc : Nat) (info : DebugInfo)
  | handlers (pc : Nat) (info : DebugInfo)
  | jumpTable (table : JumpTable)
  | mark (pc : Nat) (id : UInt32)
  deriving DecidableEq, Repr

/-- A record is known by its table, its position, and as a mark by its identifier too. Relocations
of different kinds count as different tables. -/
structure RecordKey where
  table : String
  pc : Nat
  id : Option UInt32 := none
  deriving DecidableEq, Repr

def RecordKey.duplicate (k : RecordKey) : Error := .duplicateRecord k.table k.pc

namespace SideRecord

/-- Add it to the tables. -/
def add : SideRecord → RecordStep Unit
  | data start patch stop dataOffset => recordData start patch stop dataOffset
  | object offset o => recordObject offset o
  | dataObject dataOffset o => recordDataObject dataOffset o
  | callTarget offset target => recordCallTarget offset target
  | call site => SideTables.recordCall site
  | safepoint pc info => recordSafepoint pc info
  | implicitException pc info => recordImplicitException pc info
  | handlers pc info => recordHandlers pc info
  | jumpTable table => recordJumpTable table
  | mark pc id => recordMark pc id

/-- The key, which exception edges have only if there are some. -/
def key? : SideRecord → Option RecordKey
  | data _ patch _ _ => some ⟨"data reference", patch, none⟩
  | object offset _ => some ⟨"embedded object", offset, none⟩
  | dataObject dataOffset _ => some ⟨"data object", dataOffset, none⟩
  | callTarget offset _ => some ⟨"call target", offset, none⟩
  | call site => some ⟨"call site", site.pc, none⟩
  | safepoint pc _ => some ⟨"safepoint", pc, none⟩
  | implicitException pc _ => some ⟨"implicit exception", pc, none⟩
  | handlers pc info => if info.edges = [] then none else some ⟨"exception handlers", pc, none⟩
  | jumpTable table => some ⟨"jump table", table.position, none⟩
  | mark pc id => some ⟨"mark", pc, some id⟩

/-- The field of a data reference lies in its instruction, as far as the 64-bit sum shows. -/
def Inside : SideRecord → Prop
  | data start patch stop _ => start ≤ patch ∧ fieldEnd patch ≤ stop
  | _ => True

instance (r : SideRecord) : Decidable r.Inside := by
  cases r <;> unfold Inside <;> infer_instance

/-- The rows that it adds, all in one table, and the key that it claims. Marks claim none. -/
def rows (r : SideRecord) : SideTables :=
  match r with
  | data _ patch stop dataOffset =>
    { empty with
      relocations := #[⟨patch, .data dataOffset stop⟩], seen := [("data reference", patch)] }
  | object offset o =>
    { empty with relocations := #[⟨offset, .object o⟩], seen := [("embedded object", offset)] }
  | dataObject dataOffset o =>
    { empty with dataObjects := #[⟨dataOffset, o⟩], seen := [("data object", dataOffset)] }
  | callTarget offset target =>
    { empty with relocations := #[⟨offset, .call target⟩], seen := [("call target", offset)] }
  | call site => { empty with callSites := #[site], seen := [("call site", site.pc)] }
  | safepoint pc info => { empty with safepoints := #[⟨pc, info⟩], seen := [("safepoint", pc)] }
  | implicitException pc info =>
    { empty with implicitExceptions := #[⟨pc, info⟩], seen := [("implicit exception", pc)] }
  | handlers pc info =>
    if info.edges = [] then empty else { empty with
      exceptionHandlers := (handlerRows pc info).toArray, seen := [("exception handlers", pc)] }
  | jumpTable table =>
    { empty with jumpTables := #[table], seen := [("jump table", table.position)] }
  | mark pc id => { empty with marks := #[⟨pc, id⟩] }

end SideRecord

namespace SideTables

/-- The rows of both, table by table, and the claimed keys, the last ones first. -/
def append (t u : SideTables) : SideTables :=
  ⟨t.relocations ++ u.relocations, t.dataObjects ++ u.dataObjects, t.callSites ++ u.callSites,
    t.safepoints ++ u.safepoints, t.implicitExceptions ++ u.implicitExceptions,
    t.exceptionHandlers ++ u.exceptionHandlers, t.jumpTables ++ u.jumpTables, t.marks ++ u.marks,
    u.seen ++ t.seen⟩

instance : Append SideTables := ⟨append⟩

/-- The key cannot be used again: it has been claimed, or there is the same mark. -/
def Taken (t : SideTables) (k : RecordKey) : Prop :=
  match k.id with
  | none => (k.table, k.pc) ∈ t.seen
  | some id => k.table = "mark" ∧ ⟨k.pc, id⟩ ∈ t.marks

variable {t u : SideTables} {k : RecordKey}

theorem append_eq (t u : SideTables) : t ++ u = append t u := rfl

theorem append_toArray {α : Type} (xs : Array α) (l : List α) : xs ++ l.toArray = xs ++ l :=
  Array.toList_inj.mp (by simp)

theorem append_empty (t : SideTables) : t ++ empty = t := by
  simp [append_eq, append, empty]

theorem taken_append : (t ++ u).Taken k ↔ t.Taken k ∨ u.Taken k := by
  obtain ⟨table, pc, _ | id⟩ := k
  · simp only [append_eq, append, Taken, List.mem_append]
    exact or_comm
  · simp only [append_eq, append, Taken, Array.mem_append]
    exact and_or_left

theorem Linked.append (ht : t.Linked) (hu : u.Linked) : (t ++ u).Linked := by
  intro key
  have hseen : key ∈ (t ++ u).seen ↔ key ∈ u.seen ∨ key ∈ t.seen := List.mem_append
  have hkeys : key ∈ (t ++ u).keys ↔ key ∈ t.keys ∨ key ∈ u.keys := by
    simp only [append_eq, SideTables.append, keys, Array.toList_append, List.map_append,
      List.mem_append]
    exact iff_of_eq (by ac_rfl)
  rw [hseen, hkeys, ht, hu, or_comm]

end SideTables

namespace SideRecord

variable {r : SideRecord} {t : SideTables} {k : RecordKey}

theorem taken_rows : r.rows.Taken k ↔ r.key? = some k := by
  obtain ⟨table, pc, _ | id⟩ := k
  · cases r with
    | handlers pc' info =>
      by_cases h : info.edges = [] <;> simp [rows, key?, Taken, empty, h, eq_comm]
    | _ => simp [rows, key?, Taken, empty, eq_comm]
  · cases r with
    | handlers pc' info =>
      by_cases h : info.edges = [] <;> simp [rows, key?, Taken, empty, h]
    | _ => simp [rows, key?, Taken, empty, eq_comm]

theorem linked_rows (r : SideRecord) : r.rows.Linked := by
  cases r with
  | handlers pc info =>
    by_cases h : info.edges = []
    · rw [rows, if_pos h]
      exact linked_empty
    · rw [rows, if_neg h]
      simpa [append_toArray, empty] using linked_empty.append_handlers h pc
  | data | object | dataObject | callTarget | call | safepoint | implicitException | jumpTable =>
    intro key
    simp [rows, keys, empty, RelocationKind.table]
  | mark pc id => exact linked_empty

/-! ### Accepted and refused -/

/-- A record that is inside of its instruction is added unless its key is taken. -/
theorem add_eq (hinside : r.Inside) (hkey : r.key? = some k) :
    (t.Taken k → r.add t = .error k.duplicate t) ∧
    (¬ t.Taken k → r.add t = .ok () (t ++ r.rows)) := by
  have hkeyed : ∀ {table pc f}, (table, pc) ∈ t.seen →
      (do claim table pc; modify f : RecordStep Unit) t = .error (.duplicateRecord table pc) t :=
    fun h => keyed_eq_error.mpr ⟨h, rfl, rfl⟩
  have hnew : ∀ {table pc f}, (table, pc) ∉ t.seen →
      f { t with seen := (table, pc) :: t.seen } = t ++ r.rows →
      (do claim table pc; modify f : RecordStep Unit) t = .ok () (t ++ r.rows) :=
    fun h heq => keyed_eq_ok.mpr ⟨h, heq.symm⟩
  cases r with
  | data start patch stop dataOffset =>
    cases hkey
    have h : ¬ (patch < start ∨ stop < fieldEnd patch) := by
      have := hinside.1
      have := hinside.2
      omega
    rw [add, recordData_of_inside h]
    exact ⟨hkeyed, fun h => hnew h (by simp [append_eq, append, rows, empty])⟩
  | handlers pc info =>
    by_cases hedges : info.edges = []
    · simp [key?, hedges] at hkey
    · simp only [key?, if_neg hedges] at hkey
      cases hkey
      rw [add, recordHandlers_eq hedges]
      refine ⟨hkeyed, fun h => hnew h ?_⟩
      simp [append_eq, append, rows, empty, hedges, append_toArray]
  | mark pc id =>
    cases hkey
    refine ⟨fun h => recordMark_eq_error.mpr ⟨h.2, rfl, rfl⟩,
      fun h => recordMark_eq_ok.mpr ⟨?_, ?_⟩⟩
    · exact fun hmark => h ⟨rfl, hmark⟩
    · simp [append_eq, append, rows, empty]
  | _ =>
    cases hkey
    exact ⟨hkeyed, fun h => hnew h (by simp [append_eq, append, rows, empty])⟩

/-- Only a data reference can be outside of its instruction, and then it is refused for that. -/
theorem add_outside (h : ¬ r.Inside) : ∃ start patch stop dataOffset,
    r = .data start patch stop dataOffset ∧
      r.add t = .error (.midInstructionRelocation patch (some start)) t := by
  cases r with
  | data start patch stop dataOffset =>
    refine ⟨start, patch, stop, dataOffset, rfl, ?_⟩
    have h : patch < start ∨ stop < fieldEnd patch := by
      have h : ¬ (start ≤ patch ∧ fieldEnd patch ≤ stop) := h
      omega
    rw [add, recordData_of_outside h]
    rfl
  | _ => exact absurd trivial h

/-- Without a key there are no rows. -/
theorem add_keyless (hkey : r.key? = none) :
    r.Inside ∧ r.rows = empty ∧ r.add t = .ok () t := by
  cases r with
  | handlers pc info =>
    by_cases h : info.edges = []
    · refine ⟨trivial, if_pos h, ?_⟩
      rw [add, recordHandlers_nil h]
      rfl
    · simp [key?, h] at hkey
  | _ => cases hkey

/-- Behind these records, the record is refused with this error. -/
inductive Refusal (earlier : List SideRecord) : SideRecord → Error → Prop
  | outside {start patch stop dataOffset : Nat} (h : ¬ (start ≤ patch ∧ fieldEnd patch ≤ stop)) :
      Refusal earlier (.data start patch stop dataOffset)
        (.midInstructionRelocation patch (some start))
  | taken {r r' : SideRecord} {k : RecordKey} (hinside : r.Inside) (hkey : r.key? = some k)
      (hr' : r' ∈ earlier) (hkey' : r'.key? = some k) : Refusal earlier r k.duplicate

/-- The rows of all records, in their order. -/
def tables (rs : List SideRecord) : SideTables := rs.foldl (fun t r => t ++ r.rows) .empty

variable {rs earlier : List SideRecord} {e : Error}

theorem tables_append (rs : List SideRecord) (r : SideRecord) :
    tables (rs ++ [r]) = tables rs ++ r.rows := by
  rw [tables, List.foldl_append]
  rfl

theorem taken_tables : (tables rs).Taken k ↔ ∃ r ∈ rs, r.key? = some k := by
  induction rs using List.reverseRecOn with
  | nil => obtain ⟨table, pc, _ | id⟩ := k <;> simp [tables, Taken, empty]
  | append_singleton rs r ih =>
    simp [tables_append, taken_append, taken_rows, ih, or_and_right, exists_or]

theorem linked_tables (rs : List SideRecord) : (tables rs).Linked := by
  induction rs using List.reverseRecOn with
  | nil => exact linked_empty
  | append_singleton rs r ih =>
    rw [tables_append]
    exact ih.append r.linked_rows

/-- A record is refused, and then nothing changes, or its rows are added. -/
theorem add_tables (earlier : List SideRecord) (r : SideRecord) :
    (∃ e, r.Refusal earlier e ∧ r.add (tables earlier) = .error e (tables earlier)) ∨
      (∀ e, ¬ r.Refusal earlier e) ∧ r.add (tables earlier) = .ok () (tables (earlier ++ [r])) := by
  rw [tables_append]
  by_cases hinside : r.Inside
  · cases hkey : r.key? with
    | none =>
      obtain ⟨-, hrows, hadd⟩ := add_keyless (t := tables earlier) hkey
      rw [hrows, append_empty]
      refine .inr ⟨?_, hadd⟩
      rintro e (h | ⟨-, hkey', -⟩)
      · exact h hinside
      · cases hkey.symm.trans hkey'
    | some k =>
      obtain ⟨hrefused, hadded⟩ := add_eq (t := tables earlier) hinside hkey
      by_cases hk : (tables earlier).Taken k
      · obtain ⟨r', hr', hkey'⟩ := taken_tables.mp hk
        exact .inl ⟨_, .taken hinside hkey hr' hkey', hrefused hk⟩
      · refine .inr ⟨?_, hadded hk⟩
        rintro e (h | ⟨-, hkey', hr', hkey''⟩)
        · exact h hinside
        · cases hkey.symm.trans hkey'
          exact hk (taken_tables.mpr ⟨_, hr', hkey''⟩)
  · obtain ⟨start, patch, stop, dataOffset, rfl, hadd⟩ := add_outside (t := tables earlier) hinside
    exact .inl ⟨_, .outside hinside, hadd⟩

/-- There is one reason at most. -/
theorem Refusal.unique {e' : Error} (h : r.Refusal earlier e) (h' : r.Refusal earlier e') :
    e = e' := by
  cases h with
  | outside h =>
    cases h' with
    | outside => rfl
    | taken hinside => exact absurd hinside h
  | taken hinside hkey =>
    cases h' with
    | outside h => exact absurd hinside h
    | taken _ hkey' => rw [Option.some.inj (hkey.symm.trans hkey')]

theorem inside_of_not_refusal (h : ∀ e, ¬ r.Refusal earlier e) : r.Inside := by
  by_contra houtside
  obtain ⟨start, patch, stop, dataOffset, rfl, -⟩ := add_outside (t := .empty) houtside
  exact h _ (.outside houtside)

/-! ### Runs -/

/-- The tables behind some records, each of them accepted or not. -/
def attemptAll (t : SideTables) (rs : List SideRecord) : SideTables :=
  rs.foldl (fun t r => Step.final r.add t) t

/-- The records that are accepted. -/
def accepted (t : SideTables) : List SideRecord → List SideRecord
  | [] => []
  | r :: rs =>
    match r.add t with
    | .ok _ t' => r :: accepted t' rs
    | .error _ t' => accepted t' rs

/-- No two records of a run that are accepted have one key. -/
theorem nodup_snoc (h : (earlier.filterMap key?).Nodup) (hr : ∀ e, ¬ r.Refusal earlier e) :
    ((earlier ++ [r]).filterMap key?).Nodup := by
  rw [List.filterMap_append, List.nodup_append]
  refine ⟨h, ?_, ?_⟩
  · cases hkey : r.key? <;> simp [hkey]
  · rintro k hk k' hk' rfl
    obtain ⟨r', hr', hkey'⟩ := List.mem_filterMap.mp hk
    have hkey : r.key? = some k := by simpa using hk'
    exact hr _ (.taken (inside_of_not_refusal hr) hkey hr' hkey')

/-- A run leaves the rows of what has been accepted. -/
theorem attemptAll_tables (h : (earlier.filterMap key?).Nodup) (rs : List SideRecord) :
    attemptAll (tables earlier) rs = tables (earlier ++ accepted (tables earlier) rs) ∧
      ((earlier ++ accepted (tables earlier) rs).filterMap key?).Nodup := by
  induction rs generalizing earlier with
  | nil => simpa [accepted, attemptAll] using h
  | cons r rs ih =>
    rw [attemptAll, List.foldl_cons]
    obtain ⟨e, -, hrun⟩ | ⟨hnone, hrun⟩ := add_tables earlier r
    · have haccepted : accepted (tables earlier) (r :: rs) = accepted (tables earlier) rs := by
        rw [accepted, hrun]
      rw [Step.final_of_error hrun, haccepted]
      exact ih h
    · have haccepted : accepted (tables earlier) (r :: rs) =
          r :: accepted (tables (earlier ++ [r])) rs := by
        rw [accepted, hrun]
      rw [Step.final_of_ok hrun, haccepted, List.append_cons earlier r (accepted _ rs)]
      exact ih (nodup_snoc h hnone)

end SideRecord

/-! ### Tables -/

/-- No two rows of a table have one key; the exception edges of one instruction count as one. -/
structure SideTables.Keyed (t : SideTables) : Prop where
  relocations : (t.relocations.toList.map fun r => (r.kind.table, r.offset)).Nodup
  dataObjects : (t.dataObjects.toList.map (·.dataOffset)).Nodup
  callSites : (t.callSites.toList.map (·.pc)).Nodup
  safepoints : (t.safepoints.toList.map (·.pc)).Nodup
  traps : (t.implicitExceptions.toList.map (·.pc)).Nodup
  handlers : ∃ xs : List (Nat × DebugInfo), (xs.map Prod.fst).Nodup ∧ (∀ x ∈ xs, x.2.edges ≠ []) ∧
    t.exceptionHandlers.toList = xs.flatMap fun x => handlerRows x.1 x.2
  jumpTables : (t.jumpTables.toList.map (·.position)).Nodup
  marks : (t.marks.toList.map fun m => (m.pc, m.id)).Nodup
  seen : t.seen.Nodup

namespace SideRecord

variable {t : SideTables} {r : SideRecord} {rs : List SideRecord}

theorem nodup_map_snoc {α β : Type} {f : α → β} {xs : List α} {x : α} (h : (xs.map f).Nodup)
    (hx : ∀ y ∈ xs, f y ≠ f x) : ((xs ++ [x]).map f).Nodup := by
  rw [List.map_append]
  refine List.nodup_append.mpr ⟨h, by simp, ?_⟩
  rintro _ hy _ hx' rfl
  obtain ⟨y, hy, heq⟩ := List.mem_map.mp hy
  exact hx y hy (heq.trans (by simpa using hx'))

theorem nodup_map_push {α β : Type} {f : α → β} {xs : Array α} {x : α} (h : (xs.toList.map f).Nodup)
    (hx : ∀ y ∈ xs, f y ≠ f x) : ((xs ++ #[x]).toList.map f).Nodup := by
  rw [Array.toList_append]
  exact nodup_map_snoc h fun y hy => hx y (Array.mem_toList_iff.mp hy)

/-- The exception edges of a position that has none yet are a group of their own. -/
theorem exists_groups_append {l : List ExceptionHandler} {pc : Nat} {info : DebugInfo}
    (h : ∃ xs : List (Nat × DebugInfo), (xs.map Prod.fst).Nodup ∧ (∀ x ∈ xs, x.2.edges ≠ []) ∧
      l = xs.flatMap fun x => handlerRows x.1 x.2)
    (hinfo : info.edges ≠ []) (hnew : ∀ x ∈ l, x.pc ≠ pc) :
    ∃ xs : List (Nat × DebugInfo), (xs.map Prod.fst).Nodup ∧ (∀ x ∈ xs, x.2.edges ≠ []) ∧
      l ++ handlerRows pc info = xs.flatMap fun x => handlerRows x.1 x.2 := by
  obtain ⟨xs, hnodup, hedges, rfl⟩ := h
  have hpc : ∀ x ∈ xs, x.1 ≠ pc := by
    rintro ⟨pc', info'⟩ hx rfl
    -- every group has an edge, and so a row
    obtain ⟨e, he⟩ := List.exists_mem_of_ne_nil _ (hedges _ hx)
    exact hnew _ (List.mem_flatMap.mpr ⟨_, hx, List.mem_map.mpr ⟨e, he, rfl⟩⟩) rfl
  refine ⟨xs ++ [(pc, info)], nodup_map_snoc hnodup hpc, ?_, by simp⟩
  simpa [or_imp, forall_and, hinfo] using hedges

/-- A record whose key has not been claimed adds rows that are apart from those of its table. -/
theorem keyed_append (h : t.Keyed) (hlinked : t.Linked)
    (hr : ∀ k, r.key? = some k → ¬ t.Taken k) : (t ++ r.rows).Keyed := by
  have hfree : ∀ {table pc}, r.key? = some ⟨table, pc, none⟩ →
      ((table, pc) :: t.seen).Nodup ∧ (table, pc) ∉ t.keys := fun hkey =>
    ⟨List.nodup_cons.mpr ⟨hr _ hkey, h.seen⟩, fun hk => hr _ hkey ((hlinked _).mpr hk)⟩
  cases r with
  | data | object | callTarget =>
    obtain ⟨hseen, hkey⟩ := hfree rfl
    exact { h with
      relocations := nodup_map_push h.relocations (by simpa [keys, RelocationKind.table] using hkey)
      seen := hseen }
  | dataObject dataOffset o =>
    obtain ⟨hseen, hkey⟩ := hfree rfl
    exact { h with
      dataObjects :=
        nodup_map_push h.dataObjects (by simpa [keys, RelocationKind.table_ne] using hkey)
      seen := hseen }
  | call site =>
    obtain ⟨hseen, hkey⟩ := hfree rfl
    exact { h with
      callSites := nodup_map_push h.callSites (by simpa [keys, RelocationKind.table_ne] using hkey)
      seen := hseen }
  | safepoint pc info =>
    obtain ⟨hseen, hkey⟩ := hfree rfl
    exact { h with
      safepoints :=
        nodup_map_push h.safepoints (by simpa [keys, RelocationKind.table_ne] using hkey)
      seen := hseen }
  | implicitException pc info =>
    obtain ⟨hseen, hkey⟩ := hfree rfl
    exact { h with
      traps := nodup_map_push h.traps (by simpa [keys, RelocationKind.table_ne] using hkey)
      seen := hseen }
  | jumpTable table =>
    obtain ⟨hseen, hkey⟩ := hfree rfl
    exact { h with
      jumpTables :=
        nodup_map_push h.jumpTables (by simpa [keys, RelocationKind.table_ne] using hkey)
      seen := hseen }
  | mark pc id =>
    have hmark : ⟨pc, id⟩ ∉ t.marks := fun hmark => hr _ rfl ⟨rfl, hmark⟩
    refine { h with marks := nodup_map_push h.marks ?_ }
    rintro ⟨pc', id'⟩ hy ⟨⟩
    exact hmark hy
  | handlers pc info =>
    by_cases hnone : info.edges = []
    · rw [rows, if_pos hnone, append_empty]
      exact h
    · obtain ⟨hseen, hkey⟩ := hfree (if_neg hnone)
      rw [rows, if_neg hnone]
      have hrows : ∀ x ∈ t.exceptionHandlers.toList, x.pc ≠ pc := by
        simpa [keys, RelocationKind.table_ne] using hkey
      refine { h with handlers := ?_, seen := hseen }
      simpa [append_eq, append] using exists_groups_append h.handlers hnone hrows

theorem keyed_empty : empty.Keyed :=
  ⟨.nil, .nil, .nil, .nil, .nil, ⟨[], .nil, nofun, rfl⟩, .nil, .nil, .nil⟩

theorem keyed_tables (h : (rs.filterMap key?).Nodup) : (tables rs).Keyed := by
  induction rs using List.reverseRecOn with
  | nil => exact keyed_empty
  | append_singleton rs r ih =>
    rw [List.filterMap_append, List.nodup_append] at h
    rw [tables_append]
    refine keyed_append (ih h.1) (linked_tables rs) fun k hkey hk => ?_
    obtain ⟨r', hr', hkey'⟩ := taken_tables.mp hk
    exact h.2.2 k (List.mem_filterMap.mpr ⟨r', hr', hkey'⟩) k (by simp [hkey]) rfl

/-- Whatever is recorded in fresh tables, and whichever of it is refused, the tables then have the
rows of what has been accepted, each table in its order, and no two rows of a table under one key.
The keys that have been claimed are those of the rows. Behind that a record is refused if it is a
data reference outside of its instruction, or else if one that has been accepted has its key, and
for nothing else. What is refused changes nothing, and what is accepted adds its rows. Exception
edges need a key only if there are some. The end of a field is a 64-bit sum, so that a field whose
end would be `2 ^ 64` or more is taken to end at the front; all other fields end four bytes behind
their start. -/
theorem record_after (pre : List SideRecord) (r : SideRecord) :
    let now := attemptAll .empty pre
    let earlier := accepted .empty pre
    now = tables earlier ∧ (earlier.filterMap key?).Nodup ∧ now.Keyed ∧ now.Linked ∧
      (∀ e, (∃ t, r.add now = .error e t) ↔ r.Refusal earlier e) ∧
      (∀ e t, r.add now = .error e t → t = now) ∧
      (∀ t, r.add now = .ok () t ↔ (∀ e, ¬ r.Refusal earlier e) ∧ t = now ++ r.rows) ∧
      (∀ pc info, info.edges = [] → recordHandlers pc info now = .ok () now) ∧
      ∀ patch, patch < 2 ^ 64 →
        fieldEnd patch = if patch + 4 < 2 ^ 64 then patch + 4 else patch + 4 - 2 ^ 64 := by
  intro now earlier
  have hempty : (([] : List SideRecord).filterMap key?).Nodup := .nil
  obtain ⟨hnow, hnodup⟩ : now = tables earlier ∧ (earlier.filterMap key?).Nodup :=
    attemptAll_tables hempty pre
  have hkeyed := keyed_tables hnodup
  have hlinked := linked_tables earlier
  rw [hnow]
  refine ⟨rfl, hnodup, hkeyed, hlinked, fun e => ?_, fun e t hrun => ?_, fun t => ?_, ?_,
    fun _ => fieldEnd_eq⟩
  · obtain ⟨e', hrefusal, hrun⟩ | ⟨hnone, hrun⟩ := add_tables earlier r
    · constructor
      · rintro ⟨t, h⟩
        cases hrun.symm.trans h
        exact hrefusal
      · intro h
        exact ⟨_, hrefusal.unique h ▸ hrun⟩
    · refine ⟨?_, fun h => absurd h (hnone e)⟩
      rintro ⟨t, h⟩
      cases hrun.symm.trans h
  · obtain ⟨e', -, hrun'⟩ | ⟨-, hrun'⟩ := add_tables earlier r
    · cases hrun'.symm.trans hrun
      rfl
    · cases hrun'.symm.trans hrun
  · rw [← tables_append]
    obtain ⟨e', hrefusal, hrun⟩ | ⟨hnone, hrun⟩ := add_tables earlier r
    · refine ⟨fun h => ?_, fun h => absurd hrefusal (h.1 e')⟩
      cases hrun.symm.trans h
    · constructor
      · intro h
        cases hrun.symm.trans h
        exact ⟨hnone, rfl⟩
      · rintro ⟨-, rfl⟩
        exact hrun
  · intro pc info hedges
    rw [recordHandlers_nil hedges]
    rfl

/-- A safepoint takes its position for safepoints only, and a field behind its instruction takes
none. A field whose end wraps around is accepted, though it lies far behind its instruction. -/
theorem record_after_shared :
    let info : DebugInfo := ⟨1, 0, []⟩
    let pre : List SideRecord :=
      [.safepoint 12 info, .safepoint 12 info, .data 10 15 18 0, .call ⟨12, 5, none, none, true⟩]
    let now := attemptAll .empty pre
    now.safepoints = #[⟨12, info⟩] ∧ now.callSites = #[⟨12, 5, none, none, true⟩] ∧
      (∃ t, (SideRecord.safepoint 12 info).add now = .error (.duplicateRecord "safepoint" 12) t) ∧
      (∃ t, (SideRecord.data 8 15 19 0).add now = .ok () t) ∧
      (∃ t, (SideRecord.data 0 (2 ^ 64 - 1) 10 0).add now = .ok () t) ∧
      recordHandlers 12 info now = .ok () now := by
  intro info pre now
  obtain ⟨-, -, -, -, hrefused, -, -, hedges, hend⟩ := record_after pre (.safepoint 12 info)
  obtain ⟨-, -, -, -, -, -, haccepted, -⟩ := record_after pre (.data 8 15 19 0)
  obtain ⟨-, -, -, -, -, -, hwrapped, -⟩ := record_after pre (.data 0 (2 ^ 64 - 1) 10 0)
  have hearlier : accepted .empty pre = [.safepoint 12 info, .call ⟨12, 5, none, none, true⟩] := by
    decide +kernel
  have hfree : ∀ {start patch stop}, start ≤ patch ∧ fieldEnd patch ≤ stop →
      ∀ e, ¬ (SideRecord.data start patch stop 0).Refusal (accepted .empty pre) e := by
    rintro start patch stop hinside e (h | ⟨-, hkey, hr', hkey'⟩)
    · exact h hinside
    · cases hkey
      rw [hearlier] at hr'
      simp only [List.mem_cons, List.not_mem_nil, or_false] at hr'
      obtain rfl | rfl := hr' <;> simp [key?] at hkey'
  refine ⟨by decide +kernel, by decide +kernel, ?_, ?_, ?_, hedges 12 info rfl⟩
  · have hmem : SideRecord.safepoint 12 info ∈ accepted .empty pre := hearlier ▸ List.mem_cons_self
    exact (hrefused _).mpr (.taken (k := ⟨"safepoint", 12, none⟩) trivial rfl hmem rfl)
  · exact ⟨_, (haccepted _).mpr ⟨hfree (by decide), rfl⟩⟩
  · exact ⟨_, (hwrapped _).mpr ⟨hfree ⟨Nat.zero_le _, by rw [hend _ (by decide)]; decide⟩, rfl⟩⟩

end SideRecord

end MachineCode
