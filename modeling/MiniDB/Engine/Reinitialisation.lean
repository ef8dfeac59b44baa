import MiniDB.Engine.Executors
import MiniDB.Engine.TableFiles

/-!
# Executors initialised again

A second `init` of a tree of executors after a first one and any number of calls of `next`. The
executors materialise their rows afresh, and the columns they look for are found where they were, so
the rows are the same. `ProjectionExecutor` and `NestedLoopJoinExecutor` clear what they have
materialised but not their output schema: a second `init` adds its columns behind those of the first.

## Main definitions

* `Executor.drained`: the rows of a loop over `next`
* `Executor.Reinitialises`: a second `init` gives the same rows and the same output schema
* `Executor.Resets`: the output schema of the tree is set afresh
* `Executor.Same`, `Executor.schemas`: what `next` depends on, and what `init` depends on
* `Engine.Reads F C`: the storage holds the files `F` of the tables of the catalog `C`

## Main results

* `Executor.faultsIn_drained`: a loop over `next` ends
* `Executor.init_twice`: a second `init` returns, with the same rows
* `Executor.reinit_iff`: when the output schema is the same too
-/

namespace MiniDB

open Program

/-! ## What is read -/

/-- The storage holds the files `F`, and every table of the catalog `C` is one of them. -/
structure Engine.Reads (F : Files) (C : Catalog) (db : Engine) : Prop where
  holds : Storage.Holds F none none db.storage
  catalog : db.catalog = C
  files : ∀ {name info}, C.getTable name = some info → (F info.fileId).isSome

/-- What an engine whose tables have their files reads. -/
theorem Engine.HasFiles.reads {db : Engine} (h : HasFiles db) : ∃ F, Reads F db.catalog db := by
  obtain ⟨F, h⟩ := h
  exact ⟨F, h.holds, rfl, h.file⟩

/-- What `SeqScanExecutor::init` finds depends on the files and the catalog only. -/
theorem Engine.seqScan_reads {F : Files} {C : Catalog} {name : Str} {info : TableInfo}
    (hinfo : C.getTable name = some info) (predicate : Predicate) :
    ∃ x : Except Fault (List Tuple), ∀ {db : Engine}, Reads F C db →
      wp (fun e => x = .error e) (seqScan info predicate)
        (fun results db' => x = .ok results ∧ Reads F C db') db := by
  cases hF : F info.fileId with
  | none =>
    refine ⟨.ok [], fun {db} hdb => ?_⟩
    have hsome := hdb.files hinfo
    rw [hF] at hsome
    cases hsome
  | some t =>
    refine ⟨Pages.scan (scanCallback info.schema predicate) 0 t.pages [], fun {db} hdb => ?_⟩
    rw [seqScan, onStorage, wp_zoom]
    refine wp_mono (hdb.holds.scanTable_exact hF []) ?_
    rintro results s ⟨hscan, hs⟩
    exact ⟨hscan, hs, hdb.catalog, hdb.files⟩

/-! ## Columns of a longer schema -/

theorem Schema.findColumn_append {schema : Schema} {name : Str} {i : ℕ} (more : Schema)
    (h : schema.findColumn name = some i) : Schema.findColumn (schema ++ more) name = some i := by
  unfold findColumn at h ⊢
  rw [List.findIdx?_append, h]
  rfl

theorem Schema.lt_of_findColumn {schema : Schema} {name : Str} {i : ℕ}
    (h : schema.findColumn name = some i) : i < schema.length :=
  (List.findIdx?_eq_some_iff_getElem.mp h).1

theorem foldlM_projectColumn_append {schema : Schema} (more : Schema) : ∀ {columns : List Str}
    {found found' : List ℕ × Schema}, columns.foldlM (projectColumn schema) found = .ok found' →
    ∃ indices picked, found' = (found.1 ++ indices, found.2 ++ picked) ∧
      picked.length = columns.length ∧ ∀ out : Schema,
        columns.foldlM (projectColumn (schema ++ more)) (found.1, out) =
          .ok (found.1 ++ indices, out ++ picked)
  | [], found, found', h => by
    obtain rfl := Except.ok.inj h
    exact ⟨[], [], by simp, rfl, fun out => by simp⟩
  | name :: columns, found, found', h => by
    rw [List.foldlM_cons] at h
    obtain ⟨found₁, hfirst, hrest⟩ := Machine.bind_eq_ok.mp h
    unfold projectColumn at hfirst
    cases hfind : schema.findColumn name with
    | none => rw [hfind] at hfirst; cases hfirst
    | some idx =>
      rw [hfind] at hfirst
      obtain ⟨column, hcolumn, heq⟩ := Machine.bind_eq_ok.mp hfirst
      obtain rfl := Except.ok.inj heq
      -- The induction is on the columns; the output schema is arbitrary in it, since it has grown.
      obtain ⟨indices, picked, rfl, hlen, hmore⟩ := foldlM_projectColumn_append more hrest
      refine ⟨idx :: indices, column :: picked, by simp, by simp [hlen], fun out => ?_⟩
      have hcolumn' : Schema.getColumn (schema ++ more) idx = .ok column := by
        unfold Schema.getColumn at hcolumn ⊢
        rwa [List.getElem?_append_left (Schema.lt_of_findColumn hfind)]
      have hstep : projectColumn (schema ++ more) (found.1, out) name =
          .ok (found.1 ++ [idx], out ++ [column]) := by
        simp only [projectColumn, Schema.findColumn_append more hfind, hcolumn', Machine.ok_bind]
        rfl
      rw [List.foldlM_cons, hstep, Machine.ok_bind, hmore]
      simp

/-- `ProjectionExecutor::init` finds the same columns in a longer schema, and puts them behind those
that its output schema has. -/
theorem projectColumns_append {schema out out' : Schema} {columns : List Str} {indices : List ℕ}
    (h : projectColumns schema columns out = .ok (indices, out')) (more : Schema) :
    ∃ picked, out' = out ++ picked ∧ picked.length = columns.length ∧
      projectColumns (schema ++ more) columns out' = .ok (indices, out' ++ picked) := by
  obtain ⟨_, picked, heq, hlength, hmore⟩ := foldlM_projectColumn_append more h
  obtain ⟨rfl, rfl⟩ := Prod.mk.inj heq
  exact ⟨picked, rfl, hlength, hmore _⟩

namespace Executor

/-! ## The state that the calls depend on -/

/-- The rows that `next` hands out until it returns false. -/
def drained (e : Executor) (s : e.State) : Except Fault (List Tuple) :=
  (Pull.drain .fuel e.next (e.remaining s + 1) s []).map Prod.fst

/-- The bounds of the loops over children are never reached. -/
theorem faultsIn_next : ∀ (e : Executor) (s : e.State),
    Machine.FaultsIn (fun fault => ∃ message, fault = .runtimeError message) (e.next s)
  | .seqScan _ _, _ => Machine.faultsIn_ok _
  | .filter child predicate, _ =>
    child.next_shrinks.faultsIn_nextWhere child.faultsIn_next .fuel predicate (Nat.lt_succ_self _)
  | .projection child _, (s : ProjectionState _) => by
    refine .bind (Pull.faultsIn_nextMap (child.faultsIn_next s.child) fun row => ?_)
      fun _ _ => Machine.faultsIn_ok _
    refine .mapM (fun idx => ?_) s.columnIndices
    intro fault hfault
    unfold Tuple.getValue at hfault
    split at hfault
    · cases hfault
    · exact ⟨_, (Except.error.inj hfault).symm⟩
  | .nestedLoopJoin _ _ _ _, _ => Machine.faultsIn_ok _

/-- A loop over `next` gets all its rows, unless a call throws. -/
theorem faultsIn_drained (e : Executor) (s : e.State) :
    Machine.FaultsIn (fun fault => ∃ message, fault = .runtimeError message) (e.drained s) :=
  Machine.FaultsIn.map
    (e.next_shrinks.faultsIn_drain e.faultsIn_next .fuel [] (Nat.lt_succ_self _))

/-- An output schema for each projection and join of a tree. -/
def Schemas : Executor → Type
  | .seqScan _ _ => Unit
  | .filter child _ => child.Schemas
  | .projection child _ => Schema × child.Schemas
  | .nestedLoopJoin left right _ _ => Schema × left.Schemas × right.Schemas

/-- What `init` does not set afresh: the output schemas of the projections and joins. -/
def schemas : (e : Executor) → e.State → e.Schemas
  | .seqScan _ _, _ => ()
  | .filter child _, s => child.schemas s
  | .projection child _, (s : ProjectionState _) => (s.outputSchema, child.schemas s.child)
  | .nestedLoopJoin left right _ _, (s : JoinState _ _) =>
    (s.outputSchema, left.schemas s.left, right.schemas s.right)

/-- Two states agree in what `next` depends on. -/
def Same : (e : Executor) → e.State → e.State → Prop
  | .seqScan _ _, s, s' => s = s'
  | .filter child _, s, s' => child.Same s s'
  | .projection child _, (s : ProjectionState _), (s' : ProjectionState _) =>
    s.columnIndices = s'.columnIndices ∧ child.Same s.child s'.child
  | .nestedLoopJoin _ _ _ _, (s : JoinState _ _), (s' : JoinState _ _) =>
    s.joinResults = s'.joinResults ∧ s.currentIdx = s'.currentIdx

/-- No call of `next` changes an output schema. -/
theorem next_schemas : ∀ (e : Executor), Pull.Keeps e.next e.schemas
  | .seqScan _ _, s, o, s', h => rfl
  | .filter child predicate, s, o, s', h => child.next_schemas.nextWhere .fuel predicate h
  | .projection child _, (s : ProjectionState _), o, s', h => by
    obtain ⟨⟨o', c⟩, hnext, heq⟩ := Machine.bind_eq_ok.mp h
    obtain ⟨-, rfl⟩ := Prod.mk.inj (Except.ok.inj heq)
    exact Prod.ext rfl (child.next_schemas.nextMap _ _ _ _ hnext)
  | .nestedLoopJoin _ _ _ _, s, o, s', h => by
    obtain ⟨-, rfl⟩ := Prod.mk.inj (Except.ok.inj h)
    rfl

theorem Same.remaining_eq : ∀ {e : Executor} {s s' : e.State}, e.Same s s' →
    e.remaining s = e.remaining s'
  | .seqScan _ _, _, _, h => congrArg _ h
  | .filter child _, _, _, h => Same.remaining_eq (e := child) h
  | .projection child _, _, _, h => Same.remaining_eq (e := child) h.2
  | .nestedLoopJoin _ _ _ _, (s : JoinState _ _), (s' : JoinState _ _), ⟨hresults, hidx⟩ => by
    show s.joinResults.length - s.currentIdx = s'.joinResults.length - s'.currentIdx
    rw [hresults, hidx]

/-- From states that agree `next` hands out the same. -/
theorem next_mirrors : ∀ (e : Executor), Pull.Mirrors e.Same e.next e.next
  | .seqScan _ _, s, s', h => by
    obtain rfl : s = s' := h
    exact ⟨rfl, rfl⟩
  | .filter child predicate, s, s', h => by
    have hremaining : child.remaining s = child.remaining s' := Same.remaining_eq (e := child) h
    show Pull.Alike child.Same (Pull.nextWhere .fuel child.next predicate (child.remaining s + 1) s)
      (Pull.nextWhere .fuel child.next predicate (child.remaining s' + 1) s')
    rw [hremaining]
    exact child.next_mirrors.nextWhere .fuel predicate h
  | .projection child _, (s : ProjectionState _), (s' : ProjectionState _), ⟨hindices, hchild⟩ => by
    simp only [next, hindices]
    rcases (child.next_mirrors.nextMap _).cases hchild with
      ⟨e, hs, hs'⟩ | ⟨o, c, c', hs, hs', hsame⟩
    · rw [hs, hs']
      exact rfl
    · rw [hs, hs']
      exact ⟨rfl, rfl, hsame⟩
  | .nestedLoopJoin _ _ _ _, (s : JoinState _ _), (s' : JoinState _ _), ⟨hresults, hidx⟩ => by
    simp only [next, hresults, hidx]
    exact ⟨rfl, rfl, rfl⟩

/-- From states that agree a loop gets the same rows. -/
theorem Same.drained_eq {e : Executor} {s s' : e.State} (h : e.Same s s') :
    e.drained s = e.drained s' := by
  unfold drained
  rw [h.remaining_eq]
  exact e.next_mirrors.drain .fuel [] h

/-! ## A second `init` -/

/-- The output schema of the tree is set afresh: beneath its filters it is a scan, or a projection to
no column. -/
def Resets : Executor → Prop
  | .seqScan _ _ => True
  | .filter child _ => child.Resets
  | .projection _ columns => columns = []
  | .nestedLoopJoin _ _ _ _ => False

instance : DecidablePred Resets
  | .seqScan _ _ => .isTrue trivial
  | .filter child _ => instDecidablePredResets child
  | .projection _ columns => inferInstanceAs (Decidable (columns = []))
  | .nestedLoopJoin _ _ _ _ => .isFalse id

/-- What a second `init` leaves, against what the first one has left: the same rows to hand out, and
the output schema with columns added behind it unless the tree sets it afresh. -/
structure Again (e : Executor) (s s' : e.State) : Prop where
  same : e.Same s s'
  grown : e.outputSchema s <+: e.outputSchema s'
  schema_iff : e.outputSchema s' = e.outputSchema s ↔ e.Resets

variable {F : Files} {C : Catalog}

/-- A loop over an executor initialised again gets the rows of the first time, and leaves the output
schema as it is. -/
theorem Again.drain {e : Executor} {s s' t : e.State} {rows : List Tuple} (h : Again e s s')
    (hdrain : Pull.drain .fuel e.next (e.remaining s + 1) s [] = .ok (rows, t)) :
    ∃ t', Pull.drain .fuel e.next (e.remaining s' + 1) s' [] = .ok (rows, t') ∧
      e.outputSchema t <+: e.outputSchema t' := by
  have hrows := h.same.drained_eq
  unfold drained at hrows
  rw [hdrain] at hrows
  obtain ⟨⟨rows', t'⟩, hdrain', rfl⟩ := Machine.map_eq_ok.mp hrows.symm
  refine ⟨t', hdrain', ?_⟩
  rw [e.next_outputSchema.drain .fuel hdrain, e.next_outputSchema.drain .fuel hdrain']
  exact h.grown

/-- One `init` after another, on the same tables: the first one leaves the tables as they are, and
the second one returns. -/
def Repeats (F : Files) (C : Catalog) (e : Executor) : Prop :=
  ∀ {p s : e.State} {db db₁ : Engine}, Engine.Reads F C db → (e.init p).run db = (.ok s, db₁) →
    Engine.Reads F C db₁ ∧ ∀ {q : e.State} {db' : Engine}, e.schemas q = e.schemas s →
      Engine.Reads F C db' →
        wp (fun _ => False) (e.init q) (fun s' db'' => Engine.Reads F C db'' ∧ Again e s s') db'

theorem repeats_seqScan (tableName : Str) (predicate : Option (Tuple → Bool)) :
    Repeats F C (seqScan tableName predicate) := by
  intro p s db db₁ hdb h
  simp only [init] at h
  rw [run_get_bind, hdb.catalog] at h
  cases hinfo : C.getTable tableName with
  | none => rw [hinfo] at h; cases h
  | some info =>
    rw [hinfo] at h
    obtain ⟨x, hscan⟩ := Engine.seqScan_reads (F := F) hinfo
      (some fun tuple => .ok (satisfies predicate tuple))
    obtain ⟨results, db₂, hrun, h⟩ := run_bind_eq_ok.mp h
    obtain ⟨hs, rfl⟩ := run_pure_eq_ok.mp h
    obtain ⟨rfl, hdb₂⟩ := wp_of_ok (hscan hdb) hrun
    refine ⟨hdb₂, fun {q db'} _ hdb' => ?_⟩
    simp only [init, wp_bind, wp_get, hdb'.catalog, hinfo]
    refine wp_bind.mpr (wp_mono (wp_weaken (hscan hdb') fun e he => ?_) ?_)
    · cases he
    · rintro results' db'' ⟨heq, hdb''⟩
      obtain rfl := Except.ok.inj heq
      subst hs
      exact ⟨hdb'', rfl, List.prefix_refl _, iff_of_true rfl trivial⟩

theorem Repeats.filter {child : Executor} (hchild : Repeats F C child) (predicate : Tuple → Bool) :
    Repeats F C (filter child predicate) := by
  intro p s db db₁ hdb h
  obtain ⟨hdb₁, hagain⟩ := hchild (p := p) hdb h
  refine ⟨hdb₁, fun {q db'} hq hdb' => wp_mono (hagain (q := q) hq hdb') ?_⟩
  rintro s' db'' ⟨hdb'', hs'⟩
  exact ⟨hdb'', hs'.same, hs'.grown, hs'.schema_iff⟩

theorem Repeats.projection {child : Executor} (hchild : Repeats F C child) (columns : List Str) :
    Repeats F C (projection child columns) := by
  rintro (p : ProjectionState _) s db db₁ hdb h
  obtain ⟨c, db₂, hinit, h⟩ := run_bind_eq_ok.mp h
  obtain ⟨⟨indices, out⟩, db₃, hlift, h⟩ := run_bind_eq_ok.mp h
  obtain ⟨hcolumns, rfl⟩ := run_lift_eq_ok.mp hlift
  obtain ⟨hs, rfl⟩ := run_pure_eq_ok.mp h
  subst hs
  obtain ⟨hdb₂, hagain⟩ := hchild hdb hinit
  refine ⟨hdb₂, fun {q db'} hq hdb' => ?_⟩
  obtain ⟨hout, hschemas⟩ := Prod.mk.inj hq
  replace hout : ProjectionState.outputSchema q = out := hout
  refine wp_bind.mpr (wp_mono (hagain hschemas hdb') ?_)
  rintro c' db'' ⟨hdb'', hc'⟩
  obtain ⟨more, hmore⟩ := hc'.grown
  obtain ⟨picked, -, hlength, hfound⟩ := projectColumns_append hcolumns more
  rw [hmore] at hfound
  refine wp_bind.mpr ?_
  show wp _ (lift (projectColumns (child.outputSchema c') columns q.outputSchema)) _ db''
  rw [hout, hfound, wp_lift_ok]
  refine ⟨hdb'', ⟨rfl, hc'.same⟩, List.prefix_append out picked, ?_⟩
  show out ++ picked = out ↔ columns = []
  rw [List.append_right_eq_self, ← List.length_eq_zero_iff, hlength, List.length_eq_zero_iff]

/-- What the `init` of a join has done when it returns. -/
theorem init_join_eq_ok {left right : Executor} {leftCol rightCol : Str}
    {p s : JoinState left.State right.State} {db db₁ : Engine}
    (h : ((nestedLoopJoin left right leftCol rightCol).init p).run db = (.ok s, db₁)) :
    ∃ sl db₂ sr leftTuples sl' rightTuples sr' i j results,
      (left.init p.left).run db = (.ok sl, db₂) ∧ (right.init p.right).run db₂ = (.ok sr, db₁) ∧
      Pull.drain .fuel left.next (left.remaining sl + 1) sl [] = .ok (leftTuples, sl') ∧
      Pull.drain .fuel right.next (right.remaining sr + 1) sr [] = .ok (rightTuples, sr') ∧
      (left.outputSchema sl').findColumn leftCol = some i ∧
      (right.outputSchema sr').findColumn rightCol = some j ∧
      joinTuples i j leftTuples rightTuples = .ok results ∧
      s = ⟨sl', sr', p.outputSchema ++ left.outputSchema sl' ++ right.outputSchema sr', results, 0⟩ := by
  obtain ⟨sl, db₂, hleft, h⟩ := run_bind_eq_ok.mp h
  obtain ⟨sr, db₃, hright, h⟩ := run_bind_eq_ok.mp h
  obtain ⟨⟨leftTuples, sl'⟩, db₄, hlift, h⟩ := run_bind_eq_ok.mp h
  obtain ⟨hldrain, rfl⟩ := run_lift_eq_ok.mp hlift
  obtain ⟨⟨rightTuples, sr'⟩, db₅, hlift, h⟩ := run_bind_eq_ok.mp h
  obtain ⟨hrdrain, rfl⟩ := run_lift_eq_ok.mp hlift
  cases hi : (left.outputSchema sl').findColumn leftCol with
  | none => simp only [hi] at h; cases h
  | some i =>
    cases hj : (right.outputSchema sr').findColumn rightCol with
    | none => simp only [hi, hj] at h; cases h
    | some j =>
      simp only [hi, hj] at h
      obtain ⟨results, db₆, hlift, h⟩ := run_bind_eq_ok.mp h
      obtain ⟨hjoin, rfl⟩ := run_lift_eq_ok.mp hlift
      obtain ⟨rfl, rfl⟩ := run_pure_eq_ok.mp h
      exact ⟨sl, db₂, sr, leftTuples, sl', rightTuples, sr', i, j, results, hleft, hright, hldrain,
        hrdrain, hi, hj, hjoin, rfl⟩

theorem Repeats.nestedLoopJoin {left right : Executor} (hleft : Repeats F C left)
    (hright : Repeats F C right) (leftCol rightCol : Str) :
    Repeats F C (nestedLoopJoin left right leftCol rightCol) := by
  rintro (p : JoinState _ _) s db db₁ hdb h
  obtain ⟨sl, db₂, sr, leftTuples, sl', rightTuples, sr', i, j, results, hl, hr, hldrain, hrdrain, hi,
    hj, hjoin, rfl⟩ := init_join_eq_ok h
  obtain ⟨hdb₂, hlagain⟩ := hleft hdb hl
  obtain ⟨hdb₁, hragain⟩ := hright hdb₂ hr
  refine ⟨hdb₁, fun {q db'} hq hdb' => ?_⟩
  obtain ⟨hout, hschemas⟩ := Prod.mk.inj hq
  obtain ⟨hlschemas, hrschemas⟩ := Prod.mk.inj hschemas
  replace hout : JoinState.outputSchema q =
    p.outputSchema ++ left.outputSchema sl' ++ right.outputSchema sr' := hout
  refine wp_bind.mpr (wp_mono (hlagain
    (hlschemas.trans (left.next_schemas.drain .fuel hldrain)) hdb') ?_)
  rintro tl db₃ ⟨hdb₃, htl⟩
  refine wp_bind.mpr (wp_mono (hragain
    (hrschemas.trans (right.next_schemas.drain .fuel hrdrain)) hdb₃) ?_)
  rintro tr db₄ ⟨hdb₄, htr⟩
  obtain ⟨tl', hldrain', more, hlmore⟩ := htl.drain hldrain
  obtain ⟨tr', hrdrain', more', hrmore⟩ := htr.drain hrdrain
  have hi' := Schema.findColumn_append more hi
  have hj' := Schema.findColumn_append more' hj
  rw [hlmore] at hi'
  rw [hrmore] at hj'
  refine wp_bind.mpr ?_
  rw [hldrain', wp_lift_ok]
  refine wp_bind.mpr ?_
  rw [hrdrain', wp_lift_ok]
  simp only [hi', hj', hjoin]
  have hne : left.outputSchema tl' ++ right.outputSchema tr' ≠ [] := by
    intro hnil
    have hlt := Schema.lt_of_findColumn hi'
    rw [(List.append_eq_nil_iff.mp hnil).1] at hlt
    cases hlt
  refine ⟨hdb₄, ⟨rfl, rfl⟩, ?_, iff_of_false ?_ id⟩
  · show _ <+: JoinState.outputSchema q ++ left.outputSchema tl' ++ right.outputSchema tr'
    rw [hout, List.append_assoc _ (left.outputSchema tl')]
    exact List.prefix_append ..
  · show JoinState.outputSchema q ++ left.outputSchema tl' ++ right.outputSchema tr' ≠ _
    rw [hout, List.append_assoc _ (left.outputSchema tl')]
    exact fun heq => hne (List.append_right_eq_self.mp heq)

/-- Every tree can be initialised again. -/
theorem init_again : ∀ e : Executor, Repeats F C e
  | .seqScan tableName predicate => repeats_seqScan tableName predicate
  | .filter child predicate => Repeats.filter (init_again child) predicate
  | .projection child columns => Repeats.projection (init_again child) columns
  | .nestedLoopJoin left right leftCol rightCol =>
    Repeats.nestedLoopJoin (init_again left) (init_again right) leftCol rightCol

/-! ## The same result again -/

/-- After a first `init` that has left the state `s` and the engine `db`: whatever calls of `next`
follow, another `init` returns, and it gives the same rows and the same output schema. -/
def Reinitialises (e : Executor) (s : e.State) (db : Engine) : Prop :=
  ∀ n s₁, Pull.skip e.next n s = .ok s₁ → ∃ s₂ db₂, (e.init s₁).run db = (.ok s₂, db₂) ∧
    e.drained s₂ = e.drained s ∧ e.outputSchema s₂ = e.outputSchema s

/-- Whatever calls of `next` come between them, a second `init` follows the first: it returns, and it
has the same rows to hand out. -/
theorem init_twice (e : Executor) {db db₁ : Engine} {s s₁ : e.State} {n : ℕ}
    (hdb : Engine.HasFiles db) (hinit : (e.init e.construct).run db = (.ok s, db₁))
    (hskip : Pull.skip e.next n s = .ok s₁) :
    ∃ s₂ db₂, (e.init s₁).run db₁ = (.ok s₂, db₂) ∧ Again e s s₂ := by
  obtain ⟨F, hreads⟩ := hdb.reads
  obtain ⟨hreads₁, hagain⟩ := e.init_again hreads hinit
  obtain ⟨s₂, db₂, hrun, -, hs₂⟩ := wp_total.mp (hagain (e.next_schemas.skip hskip) hreads₁)
  exact ⟨s₂, db₂, hrun, hs₂⟩

/-- A tree can be initialised again with the same result exactly when, beneath its filters, it is a
scan or a projection to no column. -/
theorem reinit_iff (e : Executor) {db db₁ : Engine} {s : e.State} (hdb : Engine.HasFiles db)
    (hinit : (e.init e.construct).run db = (.ok s, db₁)) : e.Reinitialises s db₁ ↔ e.Resets := by
  constructor
  · intro h
    obtain ⟨s₂, db₂, hrun, -, hschema⟩ := h 0 s rfl
    obtain ⟨s₂', db₂', hrun', hs₂⟩ := e.init_twice hdb hinit (n := 0) rfl
    obtain ⟨heq, -⟩ := Prod.mk.inj (hrun'.symm.trans hrun)
    obtain rfl := Except.ok.inj heq
    exact hs₂.schema_iff.mp hschema
  · intro hresets n s₁ hskip
    obtain ⟨s₂, db₂, hrun, hs₂⟩ := e.init_twice hdb hinit hskip
    exact ⟨s₂, db₂, hrun, hs₂.same.drained_eq.symm, hs₂.schema_iff.mpr hresets⟩

/-- A scan of a table with one row, beneath a filter. -/
theorem reinit_iff_scan : ∃ (db db₁ : Engine)
    (s : (filter (seqScan (lit "t") none) fun _ => true).State),
    Engine.HasFiles db ∧
    ((filter (seqScan (lit "t") none) fun _ => true).init (construct _)).run db = (.ok s, db₁) ∧
    drained _ s = .ok [[.int 1, .text (lit "a")]] ∧ Reinitialises _ s db₁ := by
  obtain ⟨db, replies, info, db₀, hrun, hinfo, -, -, hrows⟩ := Engine.sample_observed
  have hinit : ((seqScan (lit "t") none).init (construct _)).run db =
      (.ok ⟨info.schema, info.fileId, [[.int 1, .text (lit "a")]], 0⟩, db₀) := by
    simp only [init]
    rw [run_get_bind, hinfo]
    exact run_bind_ok (Engine.run_seqScan hrows (satisfies none) fun _ => rfl)
  have hfiles := Engine.hasFiles_of_run hrun
  have hagain := reinit_iff (filter (seqScan (lit "t") none) fun _ => true) hfiles hinit
  exact ⟨db, db₀, _, hfiles, hinit, rfl, hagain.mpr trivial⟩

/-- The output schemas after one `init` and after two. -/
def schemasTwice (e : Executor) (db : Engine) : Except Fault (Schema × Schema) := do
  let first := (e.init e.construct).run db
  let s ← first.1
  let s₂ ← ((e.init s).run first.2).1
  return (e.outputSchema s, e.outputSchema s₂)

/-- A projection to one column: initialised a second time it has two. -/
theorem reinit_doubles_schema : ∃ (db db₁ db₂ : Engine) (replies : List Reply)
    (s s₂ : (projection (seqScan (lit "t") none) [lit "id"]).State),
    Engine.executeAll (Engine.new (fun _ => none) ⟨[], [], 1⟩)
      [Engine.sampleTable, Engine.sampleInsert "1" "a"] = .ok (db, replies) ∧
    ((projection (seqScan (lit "t") none) [lit "id"]).init (construct _)).run db = (.ok s, db₁) ∧
    ((projection (seqScan (lit "t") none) [lit "id"]).init s).run db₁ = (.ok s₂, db₂) ∧
    outputSchema _ s = [⟨lit "id", .int⟩] ∧
    outputSchema _ s₂ = [⟨lit "id", .int⟩, ⟨lit "id", .int⟩] ∧ ¬ Reinitialises _ s db₁ := by
  have hview : (Engine.executeAll (Engine.new (fun _ => none) ⟨[], [], 1⟩)
      [Engine.sampleTable, Engine.sampleInsert "1" "a"]).toOption.map (fun r =>
        (schemasTwice (projection (seqScan (lit "t") none) [lit "id"]) r.1).toOption) =
      some (some ([⟨lit "id", .int⟩], [⟨lit "id", .int⟩, ⟨lit "id", .int⟩])) := by decide +kernel
  obtain ⟨⟨db, replies⟩, hrun, hview⟩ := Option.map_eq_some_iff.mp hview
  obtain ⟨s, hfirst, hview⟩ := Machine.bind_eq_ok.mp (Machine.toOption_eq_some.mp hview)
  obtain ⟨s₂, hsecond, hview⟩ := Machine.bind_eq_ok.mp hview
  obtain ⟨hs, hs₂⟩ := Prod.mk.inj (Except.ok.inj hview)
  refine ⟨db, _, _, replies, s, s₂, Machine.toOption_eq_some.mp hrun, run_of_result hfirst,
    run_of_result hsecond, hs, hs₂, ?_⟩
  intro h
  obtain ⟨s₃, db₃, hthird, -, hschema⟩ := h 0 s rfl
  rw [run_of_result hsecond] at hthird
  obtain rfl := Except.ok.inj (Prod.mk.inj hthird).1
  rw [hs, hs₂] at hschema
  exact absurd hschema (by decide)

end Executor

end MiniDB
