import MiniDB.Recovery.Committed

/-!
# Aborted transactions

An abort changes the state of a transaction and writes a record; it changes no page, and recovery
takes no notice of it. A live tuple is followed back to the record of its insertion: through the
history of its table, through a crash that has left every page as it was at some moment, and through
the calls of recovery.

## Main definitions

* `places`: the insertion whose tuple is at a record identifier
* `Flushed`: a table on the disk with every page as it was at some moment
* `taggedCalls`, `track`: the calls of recovery with the insertions whose tuples they bring back
* `Reverted`: no tuple of a transaction is live, and what it deleted is
* `Cleared`: the condition for that: the transaction has deleted nothing, and committed transactions
  have deleted all it inserted
* `AtomicAbort`: the transaction is reverted, with and without a crash

## Main results

* `abort_atomic`: a transaction that is cleared is reverted
-/

namespace MiniDB

open Program

/-! ## Where a tuple comes from -/

/-- The record of the insertion whose tuple is at a record identifier, after the records of a
table. -/
def places (recs : List LogRecord) (rid : RID) : Option LogRecord :=
  recs.foldl (fun place rec =>
    if rec.type = .insert ∧ rec.rid = rid then some rec
    else if rec.type = .delete ∧ rec.rid = rid then none
    else place) none

/-- The insertion of the tuple that a deletion has removed. -/
def deletedBy (recs : List LogRecord) (del : LogRecord) : Option LogRecord :=
  places (recs.filter (·.lsn < del.lsn)) del.rid

section Places

variable {recs before after : List LogRecord} {rec r del : LogRecord} {rid : RID}

theorem places_concat (recs : List LogRecord) (rec : LogRecord) (rid : RID) :
    places (recs ++ [rec]) rid =
      if rec.type = .insert ∧ rec.rid = rid then some rec
      else if rec.type = .delete ∧ rec.rid = rid then none
      else places recs rid := by
  rw [places, List.foldl_append]
  rfl

/-- The tuple at a record identifier is that of the insertion. -/
theorem Genuine.tuple?_eq (hg : Genuine [HeapPage.empty] recs) (rid : RID) :
    (heapOf recs).tuple? rid = (places recs rid).map LogRecord.newData := by
  induction recs using List.reverseRecOn with
  | nil =>
    obtain ⟨_ | p, i⟩ := rid <;> rfl
  | append_singleton recs rec ih =>
    obtain ⟨hrecs, hm⟩ := genuine_concat.mp hg
    rw [heapOf_concat, places_concat]
    unfold LogRecord.applied
    unfold LogRecord.Matches at hm
    cases htype : rec.type with
    | insert =>
      rw [htype] at hm
      simp only [true_and, reduceCtorEq, false_and, if_false]
      rw [Heap.tuple?_insert hm.1.ne_nil, hm.2]
      by_cases hrid : rid = rec.rid
      · rw [if_pos hrid, if_pos hrid.symm]
        rfl
      · rw [if_neg hrid, if_neg (Ne.symm hrid)]
        exact ih hrecs
    | delete =>
      simp only [true_and, reduceCtorEq, false_and, if_false]
      rw [Heap.tuple?_delete]
      by_cases hrid : rid = rec.rid
      · rw [if_pos hrid, if_pos hrid.symm]
        rfl
      · rw [if_neg hrid, if_neg (Ne.symm hrid)]
        exact ih hrecs
    | _ =>
      simp only [reduceCtorEq, false_and, if_false]
      exact ih hrecs

/-- The insertion is one of the records, at that record identifier. -/
theorem mem_of_places (h : places recs rid = some r) :
    r ∈ recs ∧ r.type = .insert ∧ r.rid = rid := by
  induction recs using List.reverseRecOn with
  | nil => cases h
  | append_singleton recs rec ih =>
    rw [places_concat] at h
    split at h
    case isTrue hrec =>
      obtain rfl := Option.some.inj h
      exact ⟨by simp, hrec⟩
    case isFalse =>
      split at h
      case isTrue => cases h
      case isFalse =>
        obtain ⟨hmem, hr⟩ := ih h
        exact ⟨List.mem_append_left _ hmem, hr⟩

/-- Once a tuple is deleted, its insertion is found nowhere any more. -/
theorem places_ne_of_deleted (hsorted : (before ++ del :: after).Pairwise (·.lsn < ·.lsn))
    (hdel : del.type = .delete) (hplace : places before del.rid = some r) :
    places (before ++ del :: after) rid ≠ some r := by
  obtain ⟨hmem, htype, hrid⟩ := mem_of_places hplace
  induction after using List.reverseRecOn with
  | nil =>
    intro h
    rw [places_concat, if_neg fun h => by rw [hdel] at h; exact nomatch h.1] at h
    split at h
    case isTrue => cases h
    case isFalse hne =>
      obtain ⟨-, -, hr⟩ := mem_of_places h
      exact hne ⟨hdel, hrid.symm.trans hr⟩
  | append_singleton after rec ih =>
    rw [← List.cons_append, ← List.append_assoc] at hsorted ⊢
    have hne : rec ≠ r := by
      rintro rfl
      have hlt := (List.pairwise_append.mp hsorted).2.2 rec (List.mem_append_left _ hmem) rec
        (List.mem_singleton_self _)
      exact Nat.lt_irrefl _ hlt
    rw [places_concat]
    split
    case isTrue => exact fun h => hne (Option.some.inj h)
    case isFalse =>
      split
      case isTrue => exact nofun
      case isFalse => exact ih (List.pairwise_append.mp hsorted).1

/-- The records before a record. -/
theorem filter_lsn_lt (hsorted : (before ++ del :: after).Pairwise (·.lsn < ·.lsn)) :
    (before ++ del :: after).filter (·.lsn < del.lsn) = before := by
  obtain ⟨-, hafter, hbefore⟩ := List.pairwise_append.mp hsorted
  rw [List.filter_append, List.filter_eq_self.mpr, List.filter_eq_nil_iff.mpr, List.append_nil]
  · intro rec hrec
    rcases List.mem_cons.mp hrec with rfl | hrec
    · simp
    · have hlt := (List.pairwise_cons.mp hafter).1 rec hrec
      simp only [decide_eq_true_eq]
      omega
  · exact fun rec hrec => decide_eq_true (hbefore rec hrec del List.mem_cons_self)

/-- A tuple is deleted once. -/
theorem deletedBy_inj (hsorted : recs.Pairwise (·.lsn < ·.lsn)) {del' : LogRecord}
    (hmem : del ∈ recs) (hmem' : del' ∈ recs) (htype : del.type = .delete)
    (h : deletedBy recs del = some r) (h' : deletedBy recs del' = some r) :
    ¬ del.lsn < del'.lsn := by
  intro hlt
  obtain ⟨before', after', rfl⟩ := List.append_of_mem hmem'
  have hbefore : del ∈ before' := by
    have hfilter := filter_lsn_lt hsorted
    rw [← hfilter]
    exact List.mem_filter.mpr ⟨hmem, decide_eq_true hlt⟩
  rw [deletedBy, filter_lsn_lt hsorted] at h'
  obtain ⟨before, mid, rfl⟩ := List.append_of_mem hbefore
  have hinit := (List.pairwise_append.mp hsorted).1
  refine places_ne_of_deleted hinit htype ?_ h'
  rw [deletedBy] at h
  have hsplit : before ++ del :: mid ++ del' :: after' =
      before ++ del :: (mid ++ del' :: after') := by simp
  rw [hsplit] at h hsorted
  rwa [filter_lsn_lt hsorted] at h

theorem eq_of_lsn (hsorted : recs.Pairwise (·.lsn < ·.lsn)) (hmem : rec ∈ recs) (hmem' : r ∈ recs)
    (hlsn : rec.lsn = r.lsn) : rec = r := by
  obtain ⟨before, after, rfl⟩ := List.append_of_mem hmem'
  obtain ⟨-, hafter, hbefore⟩ := List.pairwise_append.mp hsorted
  rcases List.mem_append.mp hmem with hmem | hmem
  · have hlt := hbefore rec hmem r List.mem_cons_self
    omega
  · rcases List.mem_cons.mp hmem with heq | hmem
    · exact heq
    · have hlt := (List.pairwise_cons.mp hafter).1 rec hmem
      omega

end Places

/-! ## Tuples through recovery -/

/-- A table on the disk after a crash: every page is as it was at the moment when it was last
written. -/
structure Flushed (recs : List LogRecord) (moment : ℕ → ℕ) (g : Heap) : Prop where
  length : g.length = (heapOf recs).length
  pages : ∀ p < g.length, p < (heapOf (recs.take (moment p))).length ∧
    g[p]? = (heapOf (recs.take (moment p)))[p]?

/-- The insertions whose tuples are on the disk then. -/
def crashPlaces (recs : List LogRecord) (moment : ℕ → ℕ) (rid : RID) : Option LogRecord :=
  places (recs.take (moment rid.pageId)) rid

/-- The calls that recovery makes on a table, with the insertions whose tuples they bring back. -/
def taggedCalls (records : List LogRecord) (name : Str) : List (HeapCall × Option LogRecord) :=
  ((onTable name records).filter (·.txnId ∈ (RecoveryManager.analyze records).committedTxns)).filterMap
    (fun rec => rec.redone.map (·, some rec)) ++
  ((onTable name records.reverse).filter
    (·.txnId ∈ (RecoveryManager.analyze records).activeTxns)).filterMap
    fun rec => rec.undone.map (·, deletedBy (onTable name records) rec)

/-- A call on a heap whose tuples are followed. -/
def track (st : Heap × (RID → Option LogRecord)) (c : HeapCall × Option LogRecord) :
    Heap × (RID → Option LogRecord) :=
  (c.1.apply st.1, match c.1 with
    | .insert data => Function.update st.2 (st.1.insert data).2 c.2
    | .delete rid => Function.update st.2 rid none)

/-- Where the tuples of a table come from after recovery from these records. -/
def recoveredPlaces (records : List LogRecord) (name : Str) (g : Heap)
    (origin : RID → Option LogRecord) : RID → Option LogRecord :=
  ((taggedCalls records name).foldl track (g, origin)).2

/-- The tuples are those of the insertions. -/
def Shows (g : Heap) (origin : RID → Option LogRecord) : Prop :=
  ∀ rid, g.tuple? rid = (origin rid).map LogRecord.newData

section Track

variable {records recs : List LogRecord} {name : Str} {g : Heap} {origin : RID → Option LogRecord}
  {calls : List (HeapCall × Option LogRecord)} {T : Int32}

theorem map_taggedCalls (records : List LogRecord) (name : Str) :
    (taggedCalls records name).map Prod.fst = recoverCalls records name := by
  rw [taggedCalls, recoverCalls, RecoveryManager.phaseCalls_eq, RecoveryManager.phaseCalls_eq,
    List.map_append, List.map_filterMap, List.map_filterMap]
  congr 1
  · refine List.filterMap_congr fun rec _ => ?_
    cases rec.redone <;> rfl
  · refine List.filterMap_congr fun rec _ => ?_
    cases rec.undone <;> rfl

theorem foldl_track_fst (calls : List (HeapCall × Option LogRecord)) (g : Heap)
    (origin : RID → Option LogRecord) :
    (calls.foldl track (g, origin)).1 = (calls.map Prod.fst).foldl HeapCall.apply g := by
  induction calls generalizing g origin with
  | nil => rfl
  | cons c calls ih => exact ih _ _

/-- A tag that tells the tuple of its call. -/
def Tells (c : HeapCall × Option LogRecord) : Prop := ∀ data, c.1 = .insert data →
  data ≠ [] ∧ c.2.map LogRecord.newData = some data

/-- The tuples are followed rightly. -/
theorem Shows.foldl (h : Shows g origin) (hcalls : ∀ c ∈ calls, Tells c) :
    Shows (calls.foldl track (g, origin)).1 (calls.foldl track (g, origin)).2 := by
  induction calls generalizing g origin with
  | nil => exact h
  | cons c calls ih =>
    obtain ⟨hc, hrest⟩ := List.forall_mem_cons.mp hcalls
    refine ih (fun rid => ?_) hrest
    obtain ⟨call, tag⟩ := c
    cases call with
    | insert data =>
      obtain ⟨hdata, htag⟩ := hc data rfl
      show (g.insert data).1.tuple? rid =
        (Function.update origin (g.insert data).2 tag rid).map LogRecord.newData
      rw [Heap.tuple?_insert hdata, Function.update_apply]
      split
      · exact htag.symm
      · exact h rid
    | delete r =>
      show (g.delete r).tuple? rid = (Function.update origin r none rid).map LogRecord.newData
      rw [Heap.tuple?_delete, Function.update_apply]
      split
      · rfl
      · exact h rid

/-- When no call brings back a tuple of a transaction, and each of its tuples is deleted, none is
left. -/
theorem foldl_track_clears (htags : ∀ c ∈ calls, ∀ r, c.2 = some r → (∃ data, c.1 = .insert data) →
      r.txnId ≠ T)
    (hdeletes : ∀ rid r, origin rid = some r → r.txnId = T → ∃ c ∈ calls, c.1 = .delete rid) :
    ∀ rid r, (calls.foldl track (g, origin)).2 rid = some r → r.txnId ≠ T := by
  induction calls generalizing g origin with
  | nil =>
    intro rid r hr hT
    obtain ⟨c, hc, -⟩ := hdeletes rid r hr hT
    cases hc
  | cons c calls ih =>
    obtain ⟨hc, hrest⟩ := List.forall_mem_cons.mp htags
    -- A place that shows the transaction after this call needs a deletion among the later ones.
    refine ih hrest fun rid r hr hT => ?_
    obtain ⟨call, tag⟩ := c
    cases call with
    | insert data =>
      change Function.update origin (g.insert data).2 tag rid = some r at hr
      rw [Function.update_apply] at hr
      split at hr
      case isTrue => exact absurd hT (hc r hr ⟨data, rfl⟩)
      case isFalse =>
        obtain ⟨c, hmem, hdel⟩ := hdeletes rid r hr hT
        rcases List.mem_cons.mp hmem with rfl | hmem
        · cases hdel
        · exact ⟨c, hmem, hdel⟩
    | delete r' =>
      change Function.update origin r' none rid = some r at hr
      rw [Function.update_apply] at hr
      split at hr
      case isTrue => cases hr
      case isFalse hne =>
        obtain ⟨c, hmem, hdel⟩ := hdeletes rid r hr hT
        rcases List.mem_cons.mp hmem with rfl | hmem
        · exact absurd (HeapCall.delete.inj hdel).symm hne
        · exact ⟨c, hmem, hdel⟩

/-- The tuples on the disk after a crash. -/
theorem Flushed.shows (hg : Genuine [HeapPage.empty] recs) {moment : ℕ → ℕ}
    (h : Flushed recs moment g) : Shows g (crashPlaces recs moment) := by
  intro rid
  have hpre := List.take_prefix (moment rid.pageId) recs
  rw [crashPlaces, ← (hg.of_isPrefix hpre).tuple?_eq rid]
  by_cases hlt : rid.pageId < g.length
  · rw [Heap.tuple?, Heap.tuple?, (h.pages _ hlt).2]
  · have hlen : (heapOf (recs.take (moment rid.pageId))).length ≤ rid.pageId := by
      have hle := length_heapOf_le hpre
      have hsame := h.length
      omega
    rw [Heap.tuple?, Heap.tuple?, List.getElem?_eq_none (Nat.not_lt.mp hlt),
      List.getElem?_eq_none hlen]

/-- The tags of recovery tell the tuples of its calls. -/
theorem tells_taggedCalls (hg : Genuine [HeapPage.empty] (onTable name records))
    (hsorted : records.Pairwise (·.lsn < ·.lsn)) : ∀ c ∈ taggedCalls records name, Tells c := by
  intro c hc data hdata
  rcases List.mem_append.mp hc with hc | hc
  · obtain ⟨rec, -, hcall⟩ := List.mem_filterMap.mp hc
    obtain ⟨call, hredone, rfl⟩ := Option.map_eq_some_iff.mp hcall
    obtain rfl : call = .insert data := hdata
    unfold LogRecord.redone at hredone
    split at hredone
    case h_1 =>
      split at hredone
      case isTrue => cases hredone
      case isFalse hne =>
        obtain rfl := HeapCall.insert.inj (Option.some.inj hredone)
        exact ⟨hne, rfl⟩
    case h_2 => cases hredone
    case h_3 => cases hredone
  · obtain ⟨rec, hrec, hcall⟩ := List.mem_filterMap.mp hc
    obtain ⟨call, hundone, rfl⟩ := Option.map_eq_some_iff.mp hcall
    obtain rfl : call = .insert data := hdata
    obtain ⟨hmem, hname⟩ := List.mem_filter.mp (List.mem_of_mem_filter hrec)
    have htable : rec ∈ onTable name records :=
      List.mem_filter.mpr ⟨List.mem_reverse.mp hmem, hname⟩
    unfold LogRecord.undone at hundone
    split at hundone
    case h_1 => cases hundone
    case h_2 htype =>
      split at hundone
      case isTrue => cases hundone
      case isFalse hne =>
        obtain rfl := HeapCall.insert.inj (Option.some.inj hundone)
        refine ⟨hne, ?_⟩
        obtain ⟨before, after, hsplit, hm, -, -⟩ := Process.exists_split hg htable
        have hsub : (onTable name records).Pairwise (·.lsn < ·.lsn) := hsorted.filter _
        rw [LogRecord.Matches, htype] at hm
        rw [hsplit] at hsub hg
        have hbefore : Genuine [HeapPage.empty] before := hg.of_isPrefix ⟨_, rfl⟩
        rw [deletedBy, hsplit, filter_lsn_lt hsub, ← hbefore.tuple?_eq]
        exact hm
    case h_3 => cases hundone

end Track

/-! ## Reverted transactions -/

/-- No tuple that the transaction inserted is live, and every tuple that it deleted, and that was
neither its own nor deleted by one of the committed transactions `C`, is. -/
def Reverted (T : Int32) (C : Finset Int32) (recs : List LogRecord)
    (origin : RID → Option LogRecord) : Prop :=
  (∀ rid r, origin rid = some r → r.txnId ≠ T) ∧
  ∀ del ∈ recs, del.type = .delete → del.txnId = T → ∀ r, deletedBy recs del = some r →
    r.txnId ≠ T → (∀ del' ∈ recs, del'.type = .delete → del'.txnId ∈ C → deletedBy recs del' ≠ some r) →
    ∃ rid, origin rid = some r

/-- The transaction has deleted nothing, and the committed transactions `C` have deleted every tuple
that it inserted. -/
def Cleared (T : Int32) (C : Finset Int32) (recs : List LogRecord) : Prop :=
  (∀ rec ∈ recs, rec.txnId = T → rec.type ≠ .delete) ∧
  ∀ rec ∈ recs, rec.txnId = T → rec.type = .insert →
    ∃ del ∈ recs, del.type = .delete ∧ del.txnId ∈ C ∧ deletedBy recs del = some rec

instance (T : Int32) (C : Finset Int32) (recs : List LogRecord) : Decidable (Cleared T C recs) :=
  inferInstanceAs (Decidable ((∀ rec ∈ recs, _) ∧ ∀ rec ∈ recs, _ → _ → ∃ del ∈ recs, _))

section Reverted

variable {records kept recs recs' : List LogRecord} {rec r del : LogRecord} {T : Int32}
  {C : Finset Int32} {name : Str}

/-- What was deleted is a matter of the records before. -/
theorem deletedBy_isPrefix (hsorted : recs'.Pairwise (·.lsn < ·.lsn)) (hp : recs <+: recs')
    (hmem : del ∈ recs) : deletedBy recs del = deletedBy recs' del := by
  obtain ⟨rest, rfl⟩ := hp
  obtain ⟨before, after, rfl⟩ := List.append_of_mem hmem
  have hfirst := filter_lsn_lt (List.pairwise_append.mp hsorted).1
  rw [List.append_assoc, List.cons_append] at hsorted ⊢
  rw [deletedBy, deletedBy, hfirst, filter_lsn_lt hsorted]

/-- Without a crash. -/
theorem Cleared.places (h : Cleared T C recs) (hsorted : recs.Pairwise (·.lsn < ·.lsn)) :
    Reverted T C recs (places recs) := by
  refine ⟨fun rid r hr hT => ?_, fun del hdel htype hT => absurd htype (h.1 del hdel hT)⟩
  obtain ⟨hmem, htype, -⟩ := mem_of_places hr
  obtain ⟨del, hdel, hdelete, -, hdeleted⟩ := h.2 r hmem hT htype
  obtain ⟨before, after, rfl⟩ := List.append_of_mem hdel
  rw [deletedBy, filter_lsn_lt hsorted] at hdeleted
  exact places_ne_of_deleted hsorted hdelete hdeleted hr

/-- After a crash and recovery from the records that it has left. -/
theorem Cleared.recovered (h : Cleared T C (onTable name records))
    (hsorted : records.Pairwise (·.lsn < ·.lsn)) (hpre : kept <+: records)
    (hkept : ∀ rec ∈ records, rec.txnId ∈ C → rec ∈ kept)
    (hC : (RecoveryManager.analyze kept).committedTxns = C) (hT : T ∉ C)
    (hapart : ∀ txnId ∈ (RecoveryManager.analyze kept).activeTxns, txnId ∉ C) (moment : ℕ → ℕ)
    (g : Heap) : Reverted T C (onTable name records)
      (recoveredPlaces kept name g (crashPlaces (onTable name records) moment)) := by
  have hsub : (onTable name records).Pairwise (·.lsn < ·.lsn) := hsorted.filter _
  have htable : onTable name kept <+: onTable name records := hpre.filter _
  refine ⟨foldl_track_clears (fun c hc r htag hinsert => ?_) fun rid r hr hrT => ?_,
    fun del hdel htype hdT => absurd htype (h.1 del hdel hdT)⟩
  · -- No call of recovery puts an insertion of the transaction back.
    obtain ⟨data, hdata⟩ := hinsert
    rcases List.mem_append.mp hc with hc | hc
    · obtain ⟨rec, hrec, hcall⟩ := List.mem_filterMap.mp hc
      obtain ⟨call, -, rfl⟩ := Option.map_eq_some_iff.mp hcall
      obtain rfl := Option.some.inj htag
      have htxn := of_decide_eq_true (List.mem_filter.mp hrec).2
      rintro rfl
      exact hT (hC ▸ htxn)
    · obtain ⟨rec, hrec, hcall⟩ := List.mem_filterMap.mp hc
      obtain ⟨call, hundone, rfl⟩ := Option.map_eq_some_iff.mp hcall
      obtain ⟨hrec, hactive⟩ := List.mem_filter.mp hrec
      obtain ⟨hmem, hname⟩ := List.mem_filter.mp hrec
      have hrec' : rec ∈ onTable name kept :=
        List.mem_filter.mpr ⟨List.mem_reverse.mp hmem, hname⟩
      have hdelete : rec.type = .delete := by
        obtain rfl : call = .insert data := hdata
        unfold LogRecord.undone at hundone
        split at hundone
        case h_1 => cases hundone
        case h_2 htype => exact htype
        case h_3 => cases hundone
      intro hrT
      change deletedBy (onTable name kept) rec = some r at htag
      rw [deletedBy_isPrefix hsub htable hrec'] at htag
      obtain ⟨hmem', htype, -⟩ := mem_of_places htag
      obtain ⟨del, hdel, hdelete', hcommitted, hdeleted⟩ :=
        h.2 r (List.mem_of_mem_filter hmem') hrT htype
      have hall := htable.subset hrec'
      have hle := deletedBy_inj hsub hall hdel hdelete htag hdeleted
      have hle' := deletedBy_inj hsub hdel hall hdelete' hdeleted htag
      obtain rfl := eq_of_lsn hsub hall hdel (by omega)
      exact hapart _ (of_decide_eq_true hactive) hcommitted
  · -- What the crash has left of it on the disk is deleted again by redo.
    obtain ⟨hmem, htype, hrid⟩ := mem_of_places hr
    obtain ⟨del, hdel, hdelete, hcommitted, hdeleted⟩ :=
      h.2 r (List.mem_of_mem_take hmem) hrT htype
    obtain ⟨-, -, hdelrid⟩ := mem_of_places hdeleted
    refine ⟨(.delete rid, some del), List.mem_append_left _ (List.mem_filterMap.mpr ⟨del, ?_, ?_⟩), rfl⟩
    · obtain ⟨hmem, hname⟩ := List.mem_filter.mp hdel
      refine List.mem_filter.mpr ⟨List.mem_filter.mpr ⟨hkept del hmem hcommitted, hname⟩, ?_⟩
      exact decide_eq_true (hC ▸ hcommitted)
    · rw [LogRecord.redone, hdelete, ← hrid, hdelrid]
      rfl

end Reverted

/-! ## Aborted transactions of a process -/

/-- The tuples are those of the insertions, with their record identifiers. -/
def Origins (tuples : List (RID × Str)) (origin : RID → Option LogRecord) : Prop :=
  ∀ rid data, (rid, data) ∈ tuples ↔ ∃ r, origin rid = some r ∧ r.newData = data

theorem Shows.live {g : Heap} {origin : RID → Option LogRecord} (h : Shows g origin) :
    Origins g.live origin := by
  intro rid data
  rw [Heap.mem_live, h rid, Option.map_eq_some_iff]

namespace RecoveryManager

open Storage

/-- The transaction `T` of the process is reverted: in the tables as they are, and, after a crash
that has left of the log what was flushed and any part of the rest, and of every page any version of
it, in the tables that recovery leaves. -/
def AtomicAbort (names : List Str) (p : Process) (T : Int32) : Prop :=
  ∃ records, LogManager.readAllRecords p.log.flushLog.file = .ok records ∧
    (∀ name f, p.tableFiles.find? name = some f →
      ∃ tuples s', (PageManager.scanTable HeapCall.keep f []).run p.storage = (.ok tuples, s') ∧
        Origins tuples (places (onTable name records)) ∧
        Reverted T (committedIds records) (onTable name records) (places (onTable name records))) ∧
    ∀ (cut : ℕ) (moment : Str → ℕ → ℕ) (D : HeapTables) (s : Storage),
      ∃ kept, LogManager.readAllRecords (p.crash cut) = .ok kept ∧
        (OnDisk (Named kept) D s →
          (∀ name ∈ names, ∃ g, D name = some g ∧
            Flushed (onTable name records) (moment name) g) →
          ∃ s', (recoverAndFlush (p.crash cut)).run s = (.ok (), s') ∧
            ∀ name ∈ names, ∃ g tuples t, D name = some g ∧
              (tuplesOn name).run s' = (.ok tuples, t) ∧
              Origins tuples (recoveredPlaces kept name g
                (crashPlaces (onTable name records) (moment name))) ∧
              Reverted T (committedIds records) (onTable name records) (recoveredPlaces kept name g
                (crashPlaces (onTable name records) (moment name))))

variable {names : List Str} {ops : List TxnOp} {p : Process} {T : Int32} {j : Journal} {name : Str}

/-- All records of a process are read when its log is flushed. -/
theorem flush_reads (h : Process.Tracked names j p)
    (hwf : ∀ rec ∈ j.records, rec.WellFormed) (hlen : j.records.length < 2 ^ 63) :
    LogManager.readAllRecords p.log.flushLog.file = .ok (LogManager.number 1 j.records) := by
  have hlog : p.log = ⟨[] ++ LogManager.framed 1 j.flushed,
      LogManager.framed (1 + j.flushed.length) j.pending,
      1 + j.flushed.length + j.pending.length⟩ := congrArg Prod.snd h.log
  have hfile : p.log.flushLog.file = LogManager.framed 1 j.records := by
    rw [hlog, Journal.records, LogManager.framed_append]
    rfl
  have hread := LogManager.readAllRecords_framed (n := 1) hwf (by omega) []
  rwa [LogManager.readAllRecords_nil, Machine.ok_map, List.append_nil, List.append_nil,
    ← hfile] at hread

/-- The tuples that recovery leaves in a table of which a crash has left some version of every
page. -/
theorem shows_recovered (h : Process.Tracked names j p) {cut : ℕ} {moment : ℕ → ℕ} {g : Heap}
    (hg : Flushed (onTable name (LogManager.number 1 j.records)) moment g) :
    Shows ((recoverCalls (LogManager.number 1 (j.kept cut)) name).foldl HeapCall.apply g)
      (recoveredPlaces (LogManager.number 1 (j.kept cut)) name g
        (crashPlaces (onTable name (LogManager.number 1 j.records)) moment)) := by
  have hgenuine := (genuine_number 1 name).mpr (h.genuine name)
  have hkept : Genuine [HeapPage.empty] (onTable name (LogManager.number 1 (j.kept cut))) :=
    hgenuine.of_isPrefix ((LogManager.number_isPrefix (j.kept_isPrefix cut) 1).filter _)
  have hshows := (hg.shows hgenuine).foldl
    (tells_taggedCalls hkept (LogManager.number_sorted 1 (j.kept cut)).1)
  rwa [foldl_track_fst, map_taggedCalls] at hshows

/-- The heap that recovery makes of a table. -/
theorem recover_table {records : List LogRecord} {D : HeapTables} {g : Heap} (hname : name ≠ [])
    (hg : D name = some g) :
    D.recover records name = some ((recoverCalls records name).foldl HeapCall.apply g) := by
  rw [HeapTables.recover, HeapTables.apply, if_neg hname, hg]
  rfl

/-- An aborted transaction that has deleted nothing, and whose tuples committed transactions have
all deleted, is reverted. The tables stay below 4 GiB when the log is replayed. -/
theorem abort_atomic {disk : Str → Option File} {poolSize : ℕ} (hpool : 0 < poolSize)
    (hnames : names.Nodup) (hempty : [] ∉ names) (hlong : ∀ name ∈ names, name.length < 2 ^ 16)
    (hops : ∀ op ∈ ops, op.Storable) (hlen : ops.length ≤ 2 ^ 31)
    (hrun : (Process.workload names ops).run (Process.start disk poolSize) = (.ok (), p))
    (hsize : ∀ name f, p.tableFiles.find? name = some f →
      PageManager.getPageCount p.storage f + 2 * ops.length < 2 ^ 20)
    (hT : p.mgr.transactions.find? T = some .aborted)
    (hcleared : ∀ records, LogManager.readAllRecords p.log.flushLog.file = .ok records →
      ∀ name ∈ names, Cleared T (committedIds records) (onTable name records)) :
    AtomicAbort names p T := by
  obtain ⟨j, hj, hjlen⟩ := wp_of_ok (Process.workload_spec disk hpool hnames hops hlen) hrun
  obtain ⟨H, hstores, hopen, hback⟩ := hj.heaps
  have hpages : ∀ name ∈ names, (heapOf (onTable name j.records)).length + 2 * ops.length < 2 ^ 20 := by
    intro name hname
    obtain ⟨f, hf⟩ := Option.ne_none_iff_exists'.mp ((hj.tables name).mpr hname)
    have hcount := hsize name f hf
    rwa [PageManager.getPageCount, hstores.getFilePageCount (hopen hf)] at hcount
  have hwf := hj.wellFormed hlong fun name => by
    by_cases hname : name ∈ names
    · have hlt := hpages name hname
      omega
    · rw [hj.heapOf_other hname]
      decide
  have hread := flush_reads hj hwf (by omega)
  have hsorted := (LogManager.number_sorted 1 j.records).1
  have hids : committedIds (LogManager.number 1 j.records) =
      (analyze j.records).committedTxns := by rw [committedIds_eq, analyze_number]
  refine ⟨_, hread, fun name f hf => ?_, fun cut moment D s => ?_⟩
  · have hname : name ∈ names := (hj.tables name).mp (by rw [hf]; simp)
    obtain ⟨s', hscan⟩ := HeapCall.scanTable_keep hstores (hopen hf)
    have hshows : Shows (heapOf (onTable name j.records))
        (places (onTable name (LogManager.number 1 j.records))) := by
      rw [← heapOf_number 1]
      exact ((genuine_number 1 name).mpr (hj.genuine name)).tuple?_eq
    exact ⟨_, s', hscan, hshows.live, (hcleared _ hread name hname).places (hsorted.filter _)⟩
  · have hkept := hj.crash_reads hwf (by omega) cut
    refine ⟨_, hkept, fun hs hD => ?_⟩
    have hlength : ∀ name ∈ names, ∀ g, D name = some g →
        g.length = (heapOf (onTable name j.records)).length := by
      intro name hname g hg
      obtain ⟨g', hg', hflushed⟩ := hD name hname
      obtain rfl := Option.some.inj (hg'.symm.trans hg)
      rw [hflushed.length, heapOf_number]
    have hreplay := hj.replayable (D := D)
      (fun name hname g hg => (hlength name hname g hg).ge) cut
    have hsmall : ∀ name h, D.recover (LogManager.number 1 (j.kept cut)) name = some h →
        h.length < 2 ^ 20 := by
      intro name h hh
      by_cases hname : name ∈ names
      · obtain ⟨g, hg, -⟩ := hD name hname
        rw [recover_table (fun hnil => hempty (hnil ▸ hname)) hg] at hh
        rw [← Option.some.inj hh]
        have hfold := HeapCall.length_foldl_le
          (recoverCalls (LogManager.number 1 (j.kept cut)) name) g
        have hcalls := length_recoverCalls_le (LogManager.number 1 (j.kept cut)) name
        have hle := (j.kept_isPrefix cut).length_le
        have hlt := hpages name hname
        rw [LogManager.length_number] at hcalls
        rw [hlength name hname g hg] at hfold
        omega
      · rw [hj.recover_other hname] at hh
        exact hs.small hh
    obtain ⟨⟨⟩, s', hrun', hs'⟩ := wp_total.mp (recover_spec hkept hs hreplay hsmall)
    refine ⟨s', hrun', fun name hname => ?_⟩
    obtain ⟨g, hg, hflushed⟩ := hD name hname
    obtain ⟨t, ht⟩ := hs'.tuplesOn name
    rw [recover_table (fun hnil => hempty (hnil ▸ hname)) hg] at ht
    refine ⟨g, _, t, hg, ht, (shows_recovered hj hflushed).live, ?_⟩
    have hmgr : p.mgr = j.mgr := congrArg Prod.fst hj.log
    refine (hcleared _ hread name hname).recovered hsorted
      (LogManager.number_isPrefix (j.kept_isPrefix cut) 1) (fun rec hrec htxn => ?_) ?_ ?_ ?_ _ g
    · exact hj.mem_kept_of_committed cut hrec (hids ▸ htxn)
    · rw [hids, analyze_number, hj.committed_kept]
    · rw [hids, hj.orderly.committed, ← hmgr, hT]
      simp
    · intro txnId hactive
      rw [analyze_number] at hactive
      rw [hids, ← hj.committed_kept cut]
      exact hj.orderly.apart (j.kept_isPrefix cut) hactive

/-- A transaction inserts a tuple that another one, which is committed, deletes; then it is
aborted. -/
def sampleCleared : List TxnOp :=
  [.begin, .begin, .insert 1 (lit "t") [7], .delete 2 (lit "t") ⟨0, 0⟩, .commit 2, .abort 1]

/-- The log of these calls. -/
def sampleClearedLog : List LogRecord := LogManager.number 1
  [{ txnId := 1 }, { txnId := 2 },
    { type := .insert, txnId := 1, tableName := lit "t", newData := [7] },
    { type := .delete, txnId := 2, tableName := lit "t", oldData := [7] },
    { type := .commitTxn, txnId := 2 }, { type := .abortTxn, txnId := 1 }]

theorem abort_atomic_cleared : AtomicAbort [lit "t"] (sampleProcess sampleCleared) 1 := by
  have hrun : (Process.workload [lit "t"] sampleCleared).run (Process.start (fun _ => none) 4) =
      (.ok (), sampleProcess sampleCleared) := by
    rw [sampleProcess]
    exact run_of_result (Machine.toOption_eq_some.mp (by decide +kernel))
  have hentries : (sampleProcess sampleCleared).tableFiles.entries = [(lit "t", 1)] := by
    decide +kernel
  have htables : (sampleProcess sampleCleared).tableFiles =
      (Dict.empty : Dict Str ℤ).insert (lit "t") 1 := hentries
  have hlog : LogManager.readAllRecords (sampleProcess sampleCleared).log.flushLog.file =
      .ok sampleClearedLog := Machine.toOption_eq_some.mp (by decide +kernel)
  refine abort_atomic (by decide) (by decide) (by decide) (by decide) (by decide) (by decide) hrun
    (fun name f hf => ?_) (by decide +kernel) fun records hrecords name hname => ?_
  · rw [htables] at hf
    rcases Dict.eq_or_find?_of_find?_insert hf with ⟨-, rfl⟩ | hnone
    · decide +kernel
    · cases hnone
  · obtain rfl := Except.ok.inj (hrecords.symm.trans hlog)
    obtain rfl := List.mem_singleton.mp hname
    decide +kernel

/-- A transaction inserts a tuple and is aborted. -/
def sampleAborted : List TxnOp := [.begin, .insert 1 (lit "t") [7], .abort 1]

/-- The log of these calls. -/
def sampleAbortedLog : List LogRecord := LogManager.number 1
  [{ txnId := 1 }, { type := .insert, txnId := 1, tableName := lit "t", newData := [7] },
    { type := .abortTxn, txnId := 1 }]

/-- The tuple of the aborted transaction stays. -/
theorem abort_keeps_insertion :
    ((Process.workload [lit "t"] sampleAborted).run (Process.start (fun _ => none) 4)).1.toOption =
      some () ∧
    (sampleProcess sampleAborted).mgr.transactions.find? 1 = some .aborted ∧
    ((PageManager.scanTable HeapCall.keep 1 []).run
      (sampleProcess sampleAborted).storage).1.toOption = some [(⟨0, 0⟩, [7])] ∧
    ¬ AtomicAbort [lit "t"] (sampleProcess sampleAborted) 1 := by
  refine ⟨by decide +kernel, by decide +kernel, by decide +kernel, ?_⟩
  rintro ⟨records, hread, htables, -⟩
  have hlog : LogManager.readAllRecords (sampleProcess sampleAborted).log.flushLog.file =
      .ok sampleAbortedLog := Machine.toOption_eq_some.mp (by decide +kernel)
  obtain rfl := Except.ok.inj (hread.symm.trans hlog)
  obtain ⟨-, -, -, -, hreverted, -⟩ := htables (lit "t") 1 (by decide +kernel)
  have hplace : places (onTable (lit "t") sampleAbortedLog) ⟨0, 0⟩ =
      some { lsn := 2, type := .insert, txnId := 1, tableName := lit "t", newData := [7] } := by
    decide +kernel
  exact hreverted _ _ hplace rfl

end RecoveryManager

end MiniDB
