import MiniDB.Recovery.History

/-!
# Recovery of the committed transactions

A process crashed before any page was written, and its tables are empty. Recovery inserts the tuples
of the committed transactions again, each in the first free slot, and then deletes at the record
identifiers of the insertions that were not committed. It leaves what the committed transactions
alone would have left when each of their tuples comes to its old slot again, and the undo phase
finds none of them.

## Main definitions

* `committedIds`: the committed transactions of a log
* `committedTuples`: what the committed transactions alone would have left
* `Undisturbed`: the transactions that were not committed have not moved a tuple of a committed one,
  nor left their record identifiers to one, nor deleted anything

## Main results

* `recover_keeps_committed`: recovery from the log of undisturbed transactions leaves the tuples of
  the committed ones
-/

namespace MiniDB

open Program

/-- The ids of the committed transactions. -/
def committedIds (records : List LogRecord) : Finset Int32 :=
  ((records.filter (·.type = .commitTxn)).map (·.txnId)).toFinset

/-- The deletion of the tuple at a record identifier: the next one there. -/
def deletionOf (rid : RID) (recs : List LogRecord) : Option LogRecord :=
  recs.find? fun r => r.type = .delete ∧ r.rid = rid

/-- The tuples that the committed transactions `C` alone would have left in a table, from its
records: those of their insertions, if the deletion of the tuple is not theirs. -/
def committedTuples (C : Finset Int32) : List LogRecord → List (RID × Str)
  | [] => []
  | rec :: recs =>
    if rec.type = .insert ∧ rec.txnId ∈ C ∧ (deletionOf rec.rid recs).all (·.txnId ∉ C) then
      (rec.rid, rec.newData) :: committedTuples C recs
    else committedTuples C recs

/-- When one of `C` inserts a tuple, every lower slot is taken by a tuple of `C`. -/
def Placed (C : Finset Int32) (before : List LogRecord) (rec : LogRecord) : Prop :=
  rec.type = .insert ∧ rec.txnId ∈ C →
    ∀ i < rec.rid.slotNum, RID.mk 0 i ∈ (committedTuples C before).map Prod.fst

instance (C : Finset Int32) (before : List LogRecord) (rec : LogRecord) :
    Decidable (Placed C before rec) := inferInstanceAs (Decidable (_ → ∀ i < _, _))

/-- The transactions that are not among `C` have changed nothing for those that are: each tuple of
`C` was placed as if they were alone, only they delete, and no tuple of `C` is left at the record
identifier of another's insertion. -/
structure Undisturbed (C : Finset Int32) (recs : List LogRecord) : Prop where
  inserts : ∀ n (hn : n < recs.length), Placed C (recs.take n) recs[n]
  deletes : ∀ rec ∈ recs, rec.type = .delete → rec.txnId ∈ C
  undos : ∀ rec ∈ recs, rec.type = .insert → rec.txnId ∉ C →
    rec.rid ∉ (committedTuples C recs).map Prod.fst

instance (C : Finset Int32) (recs : List LogRecord) : Decidable (Undisturbed C recs) :=
  decidable_of_iff ((∀ n (hn : n < recs.length), Placed C (recs.take n) recs[n]) ∧
    (∀ rec ∈ recs, rec.type = .delete → rec.txnId ∈ C) ∧
    ∀ rec ∈ recs, rec.type = .insert → rec.txnId ∉ C →
      rec.rid ∉ (committedTuples C recs).map Prod.fst)
    ⟨fun h => ⟨h.1, h.2.1, h.2.2⟩, fun h => ⟨h.inserts, h.deletes, h.undos⟩⟩

section Tuples

variable {C : Finset Int32} {recs : List LogRecord} {rec : LogRecord}

theorem committedIds_eq (records : List LogRecord) :
    committedIds records = (RecoveryManager.analyze records).committedTxns := by
  ext txnId
  rw [RecoveryManager.mem_committedTxns]
  simp [committedIds, and_assoc]

theorem deletionOf_concat (rid : RID) : deletionOf rid (recs ++ [rec]) =
    (deletionOf rid recs).or (if rec.type = .delete ∧ rec.rid = rid then some rec else none) := by
  unfold deletionOf
  rw [List.find?_append]
  congr 1
  split
  case isTrue h => exact List.find?_cons_of_pos (by simpa using h)
  case isFalse h => rw [List.find?_cons_of_neg (by simpa using h), List.find?_nil]

/-- What an insertion adds. -/
theorem committedTuples_concat (htype : rec.type ≠ .delete) :
    committedTuples C (recs ++ [rec]) = committedTuples C recs ++
      if rec.type = .insert ∧ rec.txnId ∈ C then [(rec.rid, rec.newData)] else [] := by
  induction recs with
  | nil => simp [committedTuples, deletionOf]
  | cons r recs ih =>
    have hfind : deletionOf r.rid (recs ++ [rec]) = deletionOf r.rid recs := by
      rw [deletionOf_concat, if_neg fun h => htype h.1, Option.or_none]
    rw [List.cons_append, committedTuples, committedTuples, hfind, ih]
    split <;> rfl

/-- What a deletion takes away, when only committed transactions delete. -/
theorem committedTuples_delete (hdeletes : ∀ r ∈ recs, r.type = .delete → r.txnId ∈ C)
    (htype : rec.type = .delete) (hrec : rec.txnId ∈ C) :
    committedTuples C (recs ++ [rec]) =
      (committedTuples C recs).filter fun e => e.1 ≠ rec.rid := by
  induction recs with
  | nil =>
    have hnot : ¬ rec.type = .insert := by rw [htype]; simp
    simp [committedTuples, hnot]
  | cons r recs ih =>
    obtain ⟨-, hrest⟩ := List.forall_mem_cons.mp hdeletes
    rw [List.cons_append, committedTuples, committedTuples, ih hrest, deletionOf_concat]
    cases hfind : deletionOf r.rid recs with
    | some del =>
      have hdel : del.txnId ∈ C := by
        have hsome := List.find?_some hfind
        exact hrest del (List.mem_of_find?_eq_some hfind) (of_decide_eq_true hsome).1
      simp [hdel]
    | none =>
      by_cases hrid : rec.rid = r.rid
      · simp only [htype, hrid, and_self, if_true, Option.none_or, Option.all_some, hrec,
          not_true_eq_false, decide_false, Bool.false_eq_true, and_false, if_false, Option.all_none,
          and_true]
        split
        · rw [List.filter_cons_of_neg (by simp)]
        · rfl
      · simp only [hrid, and_false, if_false, Option.or_none]
        split
        · rw [List.filter_cons_of_pos (by simpa using Ne.symm hrid)]
        · rfl

end Tuples

/-! ## Heaps of one page -/

section OnePage

variable {pg : HeapPage} {data : Str} {rid : RID}

theorem Heap.insert_singleton (hroom : data.length ≤ pg.free)
    (hslot : pg.nextSlot < MAX_SLOTS_PER_PAGE) :
    Heap.insert [pg] data = ([pg.put data], ⟨0, pg.nextSlot⟩) := by
  have hfit : Heap.firstFit [pg] data.length = 0 := by
    rw [Heap.firstFit, List.findIdx_cons, decide_eq_true hroom]
    rfl
  simp only [Heap.insert, hfit, List.getElem?_cons_zero, if_pos hslot, List.set_cons_zero]

/-- An insertion that stays on the page. -/
theorem Heap.insert_on_page (hpage : (Heap.insert [pg] data).2.pageId = 0) :
    data.length ≤ pg.free ∧ pg.nextSlot < MAX_SLOTS_PER_PAGE ∧
      Heap.insert [pg] data = ([pg.put data], ⟨0, pg.nextSlot⟩) := by
  rcases Heap.insert_cases [pg] data with ⟨p, pg', hp, hroom, hslot, heq⟩ | heq
  · rw [heq] at hpage
    obtain rfl : p = 0 := hpage
    obtain rfl : pg = pg' := Option.some.inj hp
    exact ⟨hroom, hslot, heq⟩
  · rw [heq] at hpage
    cases hpage

theorem Heap.tuple?_singleton (hpage : rid.pageId = 0) :
    Heap.tuple? [pg] rid = pg.tuple? rid.slotNum := by
  rw [Heap.tuple?, hpage]
  rfl

theorem Heap.delete_singleton (hpage : rid.pageId = 0) :
    Heap.delete [pg] rid = [pg.clear rid.slotNum] := by
  rw [Heap.delete, hpage]
  rfl

end OnePage

/-! ## The redo phase -/

/-- The heap that the redo phase makes of an empty table. -/
def redoHeap (C : Finset Int32) (recs : List LogRecord) : Heap :=
  ((recs.filter (·.txnId ∈ C)).filterMap LogRecord.redone).foldl HeapCall.apply [HeapPage.empty]

/-- The redo phase has put every tuple of the committed transactions where it was. -/
structure Redone (C : Finset Int32) (recs : List LogRecord) : Prop where
  pages : ∃ pg h, redoHeap C recs = [pg] ∧ heapOf recs = [h] ∧ pg.Tidy ∧ pg.used ≤ h.used
  live : (redoHeap C recs).live.Perm (committedTuples C recs)
  there : ∀ e ∈ committedTuples C recs, (heapOf recs).tuple? e.1 = some e.2

section Redo

variable {C : Finset Int32} {recs : List LogRecord} {rec : LogRecord}

theorem redoHeap_concat : redoHeap C (recs ++ [rec]) = if rec.txnId ∈ C then
    (rec.redone.toList).foldl HeapCall.apply (redoHeap C recs) else redoHeap C recs := by
  unfold redoHeap
  rw [List.filter_append, List.filterMap_append, List.foldl_append]
  split
  case isFalse hrec => rw [List.filter_cons_of_neg (by simpa using hrec)]; rfl
  case isTrue hrec =>
    rw [List.filter_cons_of_pos (by simpa using hrec), List.filter_nil]
    cases hcall : rec.redone <;> simp [hcall]

theorem redone_nil : Redone C [] where
  pages := ⟨_, _, rfl, rfl, .empty, Nat.le_refl _⟩
  live := .refl _
  there := nofun

/-- A record that changes no heap. -/
theorem Redone.other (h : Redone C recs) (htype : rec.type ≠ .insert) (htype' : rec.type ≠ .delete) :
    Redone C (recs ++ [rec]) := by
  have hredo : redoHeap C (recs ++ [rec]) = redoHeap C recs := by
    have hnone : rec.redone = none := by
      unfold LogRecord.redone
      split <;> first | rfl | contradiction
    rw [redoHeap_concat, hnone]
    exact ite_self _
  have hheap : heapOf (recs ++ [rec]) = heapOf recs := by
    rw [heapOf_concat]
    unfold LogRecord.applied
    split <;> first | rfl | contradiction
  have htuples : committedTuples C (recs ++ [rec]) = committedTuples C recs := by
    rw [committedTuples_concat htype', if_neg fun h => htype h.1, List.append_nil]
  constructor
  · rw [hredo, hheap]; exact h.pages
  · rw [hredo, htuples]; exact h.live
  · rw [hheap, htuples]; exact h.there

/-- The first slot without a tuple of a committed transaction is one that was free. -/
theorem Redone.nextSlot_eq (h : Redone C recs) {pg : HeapPage} (hredo : redoHeap C recs = [pg])
    (htidy : pg.Tidy) {rid : RID} (hpage : rid.pageId = 0)
    (hfree : (heapOf recs).tuple? rid = none)
    (hbelow : ∀ i < rid.slotNum, RID.mk 0 i ∈ (committedTuples C recs).map Prod.fst) :
    pg.nextSlot = rid.slotNum := by
  have hlive : ∀ i, pg.tuple? i = (redoHeap C recs).tuple? ⟨0, i⟩ := by
    intro i
    rw [hredo, Heap.tuple?_singleton rfl]
  refine htidy.nextSlot_eq ?_ fun i hi => ?_
  · rw [hlive]
    by_contra hsome
    obtain ⟨data, hdata⟩ := Option.ne_none_iff_exists'.mp hsome
    have hold := h.there _ (h.live.mem_iff.mp (Heap.mem_live.mpr hdata))
    have hsame : rid = ⟨0, rid.slotNum⟩ := by rw [← hpage]
    rw [← hsame, hfree] at hold
    cases hold
  · obtain ⟨e, he, heq⟩ := List.mem_map.mp (hbelow i hi)
    rw [hlive, ← heq, Heap.mem_live.mp (h.live.mem_iff.mpr he)]
    simp

/-- An insertion: that of a committed transaction comes to its old slot, and any other is left
out. -/
theorem Redone.insert (h : Redone C recs) (htype : rec.type = .insert)
    (hm : rec.Matches (heapOf recs)) (hpage : rec.rid.pageId = 0) (hplaced : Placed C recs rec) :
    Redone C (recs ++ [rec]) := by
  obtain ⟨pg, hp, hredo, hheap, htidy, hused⟩ := h.pages
  rw [LogRecord.Matches, htype] at hm
  obtain ⟨hstorable, hrid⟩ := hm
  have hne := hstorable.ne_nil
  have hfree : (heapOf recs).tuple? rec.rid = none := by
    rw [← hrid]
    exact Heap.tuple?_insert_free
  obtain ⟨hroom, hslot, hins⟩ : rec.newData.length ≤ hp.free ∧ hp.nextSlot < MAX_SLOTS_PER_PAGE ∧
      Heap.insert [hp] rec.newData = ([hp.put rec.newData], ⟨0, hp.nextSlot⟩) := by
    refine Heap.insert_on_page ?_
    rw [← hheap, hrid, hpage]
  have hafter : heapOf (recs ++ [rec]) = (Heap.insert (heapOf recs) rec.newData).1 := by
    rw [heapOf_concat, LogRecord.applied, htype]
  have hpage' : heapOf (recs ++ [rec]) = [hp.put rec.newData] := by rw [hafter, hheap, hins]
  -- The tuples that were there stay: the insertion went to a free slot.
  have hthere : ∀ e ∈ committedTuples C recs, (heapOf (recs ++ [rec])).tuple? e.1 = some e.2 := by
    intro e he
    have hold := h.there e he
    rw [hafter, Heap.tuple?_insert hne, hrid, if_neg]
    · exact hold
    · rintro heq
      rw [heq, hfree] at hold
      cases hold
  have htuples : committedTuples C (recs ++ [rec]) = committedTuples C recs ++
      if rec.type = .insert ∧ rec.txnId ∈ C then [(rec.rid, rec.newData)] else [] :=
    committedTuples_concat (by rw [htype]; simp)
  -- Redo repeats the insertion of a committed transaction, and it picks the same slot.
  by_cases htxn : rec.txnId ∈ C
  · rw [if_pos ⟨htype, htxn⟩] at htuples
    have hnext := h.nextSlot_eq hredo htidy hpage hfree (hplaced ⟨htype, htxn⟩)
    have hslot' : pg.nextSlot < MAX_SLOTS_PER_PAGE := by
      rw [hnext, ← hrid, hheap, hins]
      exact hslot
    have hins' : Heap.insert [pg] rec.newData = ([pg.put rec.newData], ⟨0, pg.nextSlot⟩) := by
      refine Heap.insert_singleton ?_ hslot'
      simp only [HeapPage.free] at hroom ⊢
      omega
    have hrid' : (Heap.insert (redoHeap C recs) rec.newData).2 = rec.rid := by
      rw [hredo, hins', hnext, ← hpage]
    have hredo' : redoHeap C (recs ++ [rec]) = (Heap.insert (redoHeap C recs) rec.newData).1 := by
      have hcall : rec.redone = some (.insert rec.newData) := by
        rw [LogRecord.redone, htype]
        exact if_neg hne
      rw [redoHeap_concat, if_pos htxn, hcall]
      rfl
    constructor
    · refine ⟨pg.put rec.newData, hp.put rec.newData, ?_, hpage', htidy.put hslot' hstorable, ?_⟩
      · rw [hredo', hredo, hins']
      · exact Nat.add_le_add_right hused _
    · rw [hredo', htuples]
      refine (Heap.live_insert hne).trans ?_
      rw [hrid']
      exact (h.live.cons _).trans (List.perm_append_singleton _ _).symm
    · intro e he
      rw [htuples, List.mem_append, List.mem_singleton] at he
      rcases he with he | rfl
      · exact hthere e he
      · rw [hafter, Heap.tuple?_insert hne, if_pos hrid.symm]
  · rw [if_neg fun h => htxn h.2, List.append_nil] at htuples
    have hredo' : redoHeap C (recs ++ [rec]) = redoHeap C recs := by
      rw [redoHeap_concat, if_neg htxn]
    constructor
    · exact ⟨pg, _, hredo'.trans hredo, hpage', htidy, hused.trans (Nat.le_add_right _ _)⟩
    · rw [hredo', htuples]; exact h.live
    · rw [htuples]; exact hthere

/-- A deletion by a committed transaction. -/
theorem Redone.delete (h : Redone C recs) (htype : rec.type = .delete) (hpage : rec.rid.pageId = 0)
    (htxn : rec.txnId ∈ C) (hdeletes : ∀ r ∈ recs, r.type = .delete → r.txnId ∈ C) :
    Redone C (recs ++ [rec]) := by
  obtain ⟨pg, hp, hredo, hheap, htidy, hused⟩ := h.pages
  have hredo' : redoHeap C (recs ++ [rec]) = (redoHeap C recs).delete rec.rid := by
    have hcall : rec.redone = some (.delete rec.rid) := by rw [LogRecord.redone, htype]
    rw [redoHeap_concat, if_pos htxn, hcall]
    rfl
  have hheap' : heapOf (recs ++ [rec]) = (heapOf recs).delete rec.rid := by
    rw [heapOf_concat, LogRecord.applied, htype]
  have htuples := committedTuples_delete hdeletes htype htxn
  constructor
  · refine ⟨pg.clear rec.rid.slotNum, hp.clear rec.rid.slotNum, ?_, ?_, htidy.clear _, hused⟩
    · rw [hredo', hredo, Heap.delete_singleton hpage]
    · rw [hheap', hheap, Heap.delete_singleton hpage]
  · rw [hredo', htuples]
    exact (Heap.live_delete rec.rid).trans (h.live.filter _)
  · intro e he
    rw [htuples, List.mem_filter] at he
    rw [hheap', Heap.tuple?_delete, if_neg (of_decide_eq_true he.2)]
    exact h.there e he.1

/-- The redo phase of undisturbed transactions. -/
theorem redone (hg : Genuine [HeapPage.empty] recs) (hpage : ∀ rec ∈ recs, rec.rid.pageId = 0)
    (hinserts : ∀ n (hn : n < recs.length), Placed C (recs.take n) recs[n])
    (hdeletes : ∀ rec ∈ recs, rec.type = .delete → rec.txnId ∈ C) : Redone C recs := by
  induction recs using List.reverseRecOn with
  | nil => exact redone_nil
  | append_singleton recs rec ih =>
    obtain ⟨hrecs, hm⟩ := genuine_concat.mp hg
    have hbefore : ∀ r ∈ recs, r.type = .delete → r.txnId ∈ C :=
      fun r hr => hdeletes r (List.mem_append_left _ hr)
    have hlast : rec ∈ recs ++ [rec] := by simp
    have hredone : Redone C recs := by
      refine ih hrecs (fun r hr => hpage r (List.mem_append_left _ hr)) (fun n hn => ?_) hbefore
      have hplaced := hinserts n (by rw [List.length_append]; omega)
      rwa [List.take_append_of_le_length (Nat.le_of_lt hn), List.getElem_append_left hn] at hplaced
    by_cases hinsert : rec.type = .insert
    · refine hredone.insert hinsert hm (hpage rec hlast) ?_
      have hplaced := hinserts recs.length (by simp)
      rwa [List.take_left, List.getElem_concat_length rfl] at hplaced
    · by_cases hdelete : rec.type = .delete
      · exact hredone.delete hdelete (hpage rec hlast) (hdeletes rec hlast hdelete) hbefore
      · exact hredone.other hinsert hdelete

end Redo

/-! ## Recovery -/

namespace RecoveryManager

open Storage

variable {records : List LogRecord} {name : Str}

theorem phaseCalls_eq (call : LogRecord → Option HeapCall) (txns : Finset Int32) :
    phaseCalls call txns name records =
      ((onTable name records).filter (·.txnId ∈ txns)).filterMap call := by
  rw [phaseCalls, onTable, List.filter_filter]
  congr 1
  refine List.filter_congr fun rec _ => ?_
  simp

/-- What recovery makes of an empty table: the tuples of the committed transactions. -/
theorem recover_live (hg : Genuine [HeapPage.empty] (onTable name records))
    (hpage : ∀ rec ∈ onTable name records, rec.rid.pageId = 0)
    (hapart : ∀ txnId ∈ (analyze records).activeTxns, txnId ∉ committedIds records)
    (hcond : Undisturbed (committedIds records) (onTable name records)) :
    ((recoverCalls records name).foldl HeapCall.apply [HeapPage.empty]).length = 1 ∧
    ((recoverCalls records name).foldl HeapCall.apply [HeapPage.empty]).live.Perm
      (committedTuples (committedIds records) (onTable name records)) := by
  have hredone := redone hg hpage hcond.inserts hcond.deletes
  obtain ⟨pg, -, hredo, -, -, -⟩ := hredone.pages
  -- The undo phase deletes where no tuple of a committed transaction is.
  have hundo : ∀ c ∈ phaseCalls LogRecord.undone (analyze records).activeTxns name records.reverse,
      ∃ rid, c = .delete rid ∧
        rid ∉ (committedTuples (committedIds records) (onTable name records)).map Prod.fst := by
    intro c hc
    obtain ⟨rec, hrec, hcall⟩ := List.mem_filterMap.mp hc
    obtain ⟨hmem, hactive⟩ := List.mem_filter.mp hrec
    obtain ⟨htxn, hname⟩ := of_decide_eq_true hactive
    have htable : rec ∈ onTable name records :=
      List.mem_filter.mpr ⟨List.mem_reverse.mp hmem, decide_eq_true hname⟩
    unfold LogRecord.undone at hcall
    split at hcall
    case h_1 htype =>
      exact ⟨rec.rid, (Option.some.inj hcall).symm, hcond.undos rec htable htype (hapart _ htxn)⟩
    case h_2 htype => exact absurd (hcond.deletes rec htable htype) (hapart _ htxn)
    case h_3 => cases hcall
  obtain ⟨rids, hrids⟩ := HeapCall.exists_map_delete fun c hc => (hundo c hc).imp fun _ => And.left
  have hheap : (recoverCalls records name).foldl HeapCall.apply [HeapPage.empty] =
      rids.foldl Heap.delete (redoHeap (committedIds records) (onTable name records)) := by
    rw [recoverCalls, List.foldl_append, hrids, HeapCall.foldl_delete, phaseCalls_eq,
      ← committedIds_eq]
    rfl
  rw [hheap]
  constructor
  · rw [Heap.length_foldl_delete, hredo, List.length_singleton]
  · refine (Heap.live_foldl_delete rids _).trans ?_
    rw [List.filter_eq_self.mpr]
    · exact hredone.live
    · rintro e he
      refine decide_eq_true fun hmem => ?_
      obtain ⟨rid, heq, hnot⟩ := hundo (.delete e.1) (hrids ▸ List.mem_map_of_mem hmem)
      obtain rfl := HeapCall.delete.inj heq
      exact hnot (List.mem_map_of_mem (hredone.live.mem_iff.mp he))

/-- Recovery from the log leaves in a table that is empty on the disk the bag of tuples that the
committed transactions of the log alone would have left. -/
def KeepsCommitted (name file : Str) (records : List LogRecord) : Prop :=
  ∀ D s, OnDisk (Named records) D s → D name = some [HeapPage.empty] →
    ∃ s' tuples t, (recoverAndFlush file).run s = (.ok (), s') ∧
      (tuplesOn name).run s' = (.ok tuples, t) ∧
      (tuples.map Prod.snd).Perm
        ((committedTuples (committedIds records) (onTable name records)).map Prod.snd)

/-- A process that has created one table and run transactions on it, all on the first page, crashes
before any page was written. When the transactions that were not committed have not disturbed the
others, recovery leaves the tuples that the committed ones alone would have left. -/
theorem recover_keeps_committed {disk : Str → Option File} {poolSize : ℕ} (hpool : 0 < poolSize)
    (hname : name ≠ []) (hlong : name.length < 2 ^ 16) {ops : List TxnOp}
    (hops : ∀ op ∈ ops, op.Storable) (hlen : ops.length ≤ 2 ^ 31) {p : Process}
    (hrun : (Process.workload [name] ops).run (Process.start disk poolSize) = (.ok (), p))
    (hpages : ∀ f, p.tableFiles.find? name = some f → PageManager.getPageCount p.storage f = 1)
    (cut : ℕ) :
    ∃ records, LogManager.readAllRecords (p.crash cut) = .ok records ∧
      (Undisturbed (committedIds records) (onTable name records) →
        KeepsCommitted name (p.crash cut) records) := by
  obtain ⟨j, hj, hjlen⟩ := wp_of_ok
    (Process.workload_spec disk hpool (List.nodup_singleton name) hops hlen) hrun
  have hone : ∀ name', (heapOf (onTable name' j.records)).length = 1 := by
    intro name'
    by_cases hname' : name' = name
    · subst hname'
      obtain ⟨H, hstores, hopen, -⟩ := hj.heaps
      obtain ⟨f, hf⟩ := Option.ne_none_iff_exists'.mp ((hj.tables name').mpr (List.mem_singleton_self _))
      exact (hstores.getFilePageCount (hopen hf)).symm.trans (hpages f hf)
    · rw [hj.heapOf_other (by simpa using hname')]
      rfl
  have hwf := hj.wellFormed (by simpa using hlong) fun name' => by rw [hone]; decide
  refine ⟨_, hj.crash_reads hwf (by omega) cut, fun hcond D s hs hD => ?_⟩
  have hkept := j.kept_isPrefix cut
  have hg : Genuine [HeapPage.empty] (onTable name (LogManager.number 1 (j.kept cut))) :=
    (genuine_number 1 name).mpr ((hj.genuine name).of_isPrefix (hkept.filter _))
  have hpage : ∀ rec ∈ onTable name (LogManager.number 1 (j.kept cut)), rec.rid.pageId = 0 := by
    intro rec hrec
    obtain ⟨rec', hrec', k, rfl⟩ := Process.mem_kept (List.mem_of_mem_filter hrec)
    have hlt := (hj.fits hrec').2.2.2
    rw [hone] at hlt
    exact Nat.lt_one_iff.mp hlt
  have hapart : ∀ txnId ∈ (analyze (LogManager.number 1 (j.kept cut))).activeTxns,
      txnId ∉ committedIds (LogManager.number 1 (j.kept cut)) := by
    rw [committedIds_eq, analyze_number]
    exact fun txnId => hj.orderly.apart hkept
  obtain ⟨hlength, hlive⟩ := recover_live hg hpage hapart hcond
  have hrecover : D.recover (LogManager.number 1 (j.kept cut)) name = some
      ((recoverCalls (LogManager.number 1 (j.kept cut)) name).foldl HeapCall.apply
        [HeapPage.empty]) := by
    rw [HeapTables.recover, HeapTables.apply, if_neg hname, hD]
    rfl
  have hsmall : ∀ name' h, D.recover (LogManager.number 1 (j.kept cut)) name' = some h →
      h.length < 2 ^ 20 := by
    intro name' h hh
    by_cases hname' : name' = name
    · rw [hname', hrecover] at hh
      rw [← Option.some.inj hh, hlength]
      decide
    · rw [hj.recover_other (by simpa using hname')] at hh
      exact hs.small hh
  have hreplay := hj.replayable (D := D) (fun name' hname' g hg => ?_) cut
  · obtain ⟨⟨⟩, s', hrun', hs'⟩ := wp_total.mp
      (recover_spec (hj.crash_reads hwf (by omega) cut) hs hreplay hsmall)
    obtain ⟨t, ht⟩ := hs'.tuplesOn name
    rw [hrecover] at ht
    exact ⟨s', _, t, hrun', ht, hlive.map _⟩
  · rw [hone]
    rw [List.mem_singleton.mp hname', hD] at hg
    rw [← Option.some.inj hg]
    exact Nat.le_refl _

/-- Two transactions in turns: one that inserts, deletes and inserts again and is committed, and one
that is not. -/
def sampleTurns : List TxnOp :=
  [.begin, .insert 1 (lit "t") [7], .begin, .insert 2 (lit "t") [8],
    .delete 1 (lit "t") ⟨0, 0⟩, .insert 1 (lit "t") [9], .commit 1]

/-- A process that has made these calls on one table. -/
def sampleProcess (ops : List TxnOp) : Process :=
  ((Process.workload [lit "t"] ops).run (Process.start (fun _ => none) 4)).2

/-- The log of these calls. -/
def sampleTurnsLog : List LogRecord := LogManager.number 1
  [{ txnId := 1 }, { type := .insert, txnId := 1, tableName := lit "t", newData := [7] },
    { txnId := 2 },
    { type := .insert, txnId := 2, tableName := lit "t", rid := ⟨0, 1⟩, newData := [8] },
    { type := .delete, txnId := 1, tableName := lit "t", oldData := [7] },
    { type := .insert, txnId := 1, tableName := lit "t", newData := [9] },
    { type := .commitTxn, txnId := 1 }]

theorem recover_keeps_committed_turns :
    KeepsCommitted (lit "t") ((sampleProcess sampleTurns).crash 0) sampleTurnsLog := by
  have hrun : (Process.workload [lit "t"] sampleTurns).run (Process.start (fun _ => none) 4) =
      (.ok (), sampleProcess sampleTurns) := by
    rw [sampleProcess]
    exact run_of_result (Machine.toOption_eq_some.mp (by decide +kernel))
  have hpages : ∀ f, (sampleProcess sampleTurns).tableFiles.find? (lit "t") = some f →
      PageManager.getPageCount (sampleProcess sampleTurns).storage f = 1 := by
    have hfile : (sampleProcess sampleTurns).tableFiles.find? (lit "t") = some 1 := by decide +kernel
    intro f hf
    obtain rfl := Option.some.inj (hfile.symm.trans hf)
    decide +kernel
  obtain ⟨records, hread, h⟩ := recover_keeps_committed (by decide) (by decide) (by decide)
    (by decide) (by decide) hrun hpages 0
  have hlog : LogManager.readAllRecords ((sampleProcess sampleTurns).crash 0) = .ok sampleTurnsLog :=
    Machine.toOption_eq_some.mp (by decide +kernel)
  obtain rfl := Except.ok.inj (hread.symm.trans hlog)
  exact h (by decide +kernel)

/-- A transaction that is not committed has the first slot, and one that is has the second. -/
def sampleLoss : List TxnOp :=
  [.begin, .insert 1 (lit "t") [7], .begin, .insert 2 (lit "t") [8], .commit 2]

/-- The log of these calls. -/
def sampleLossLog : List LogRecord := LogManager.number 1
  [{ txnId := 1 }, { type := .insert, txnId := 1, tableName := lit "t", newData := [7] },
    { txnId := 2 },
    { type := .insert, txnId := 2, tableName := lit "t", rid := ⟨0, 1⟩, newData := [8] },
    { type := .commitTxn, txnId := 2 }]

/-- A process on a disk with one table, which is empty. -/
def sampleRestart : Storage :=
  ⟨DiskManager.new fun path =>
    if path = tableFile (lit "t") then some (File.ofPages [PageManager.initPage 0]) else none,
    BufferPool.new 4⟩

theorem onDisk_sampleRestart (names : Str → Prop) :
    OnDisk names (fun n => if n = lit "t" then some [HeapPage.empty] else none) sampleRestart :=
  onDisk_single names (lit "t")
    (fileLays_ofPages (.cons (slotted_initPage 0) .nil) (by decide)) (by decide)

/-- The committed tuple is inserted again in the first slot, where the undo phase deletes it. -/
theorem recover_loses_committed :
    ((Process.workload [lit "t"] sampleLoss).run (Process.start (fun _ => none) 4)).1.toOption =
      some () ∧
    PageManager.getPageCount (sampleProcess sampleLoss).storage 1 = 1 ∧
    LogManager.readAllRecords ((sampleProcess sampleLoss).crash 0) = .ok sampleLossLog ∧
    ¬ KeepsCommitted (lit "t") ((sampleProcess sampleLoss).crash 0) sampleLossLog := by
  refine ⟨by decide +kernel, by decide +kernel, Machine.toOption_eq_some.mp (by decide +kernel), ?_⟩
  intro h
  obtain ⟨s', tuples, t, hrun, htuples, hperm⟩ := h _ sampleRestart (onDisk_sampleRestart _) (if_pos rfl)
  have hnone : ((recoverAndFlush ((sampleProcess sampleLoss).crash 0) >>= fun _ =>
      tuplesOn (lit "t")).run sampleRestart).1.toOption = some [] := by decide +kernel
  rw [run_bind_ok hrun, htuples] at hnone
  obtain rfl : tuples = [] := Option.some.inj hnone
  exact absurd hperm.length_eq (by decide)

end RecoveryManager

end MiniDB
