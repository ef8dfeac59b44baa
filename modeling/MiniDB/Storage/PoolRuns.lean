import MiniDB.Foundations.Machine
import MiniDB.Storage.Pool

/-!
# Runs of the buffer pool

Clients fetch pages, write into the frames they have pinned, end their pins and write pages back, in
any order. A pin is known by the number of the fetch that gave it. Seen from the clients the pool is
a memory of pages: what a fetch finds is what was last written to the page, however often the page
went to the disk and came back in between.

## Main definitions

* `Access`, `Session`: what clients do, and the pool with the pins that are open
* `Access.Allowed`: pins that were written under are ended as dirty
* `Memory`, `MemStep`: the pages as a memory

## Main results

* `Access.run_is_memory`: every run of the pool is a run of the memory, and `flushAllPages` leaves
  the memory on the disk when no page is pinned
-/

namespace MiniDB

open Program Storage BufferPool

/-- What the clients of the pool do. -/
inductive Access
  | fetch (fileId : ℤ) (pageNum : ℕ) (forWrite : Bool)
  | write (pin : ℕ) (data : Page)
  | unpin (pin : ℕ) (isDirty : Bool)
  | flush (fileId : ℤ) (pageNum : ℕ)
  | flushAll

/-- An open pin: its page, the frame its pointer points to, and whether the client wrote there. -/
structure Pin where
  key : PageKey
  frameIdx : ℕ
  wrote : Bool

/-- The storage and the open pins by the number of their fetch. -/
structure Session where
  storage : Storage
  pins : Dict ℕ Pin
  next : ℕ

namespace Session

/-- A new pool over a disk, without a pin. -/
def new (d : DiskManager) (poolSize : ℕ) : Session := ⟨⟨d, BufferPool.new poolSize⟩, .empty, 0⟩

/-- A call of the storage that leaves the pins. -/
def call (s : Session) (x : Program Storage Fault Unit) : Except Fault (Session × Option Page) :=
  match x.run s.storage with
  | (.ok (), storage) => .ok ({ s with storage := storage }, none)
  | (.error e, _) => .error e

/-- One access. A fetch gives the bytes its pointer points to; the exception of a fetch that finds
no frame is caught by the client. -/
def step (s : Session) : Access → Except Fault (Session × Option Page)
  | .fetch fileId pageNum forWrite =>
    match (fetchPage fileId pageNum forWrite).run s.storage with
    | (.ok i, storage) =>
      .ok (⟨storage, s.pins.insert s.next ⟨(fileId, pageNum), i, false⟩, s.next + 1⟩,
        some (storage.bufferPool.frames i).data)
    | (.error e, storage) =>
      if e = allPinned then .ok ({ s with storage := storage }, none) else .error e
  | .write n data =>
    match s.pins.find? n with
    | none => .ok (s, none)
    | some pin =>
      call { s with pins := s.pins.insert n { pin with wrote := true } }
        (setPageData pin.frameIdx data)
  | .unpin n isDirty =>
    match s.pins.find? n with
    | none => .ok (s, none)
    | some pin => call { s with pins := s.pins.erase n } (unpinPage pin.key.1 pin.key.2 isDirty)
  | .flush fileId pageNum => call s (flushPage fileId pageNum)
  | .flushAll => call s flushAllPages

/-- The pages written under a pin that is still open. -/
def Written (pins : Dict ℕ Pin) (key : PageKey) : Prop :=
  ∃ n pin, pins.find? n = some pin ∧ pin.key = key ∧ pin.wrote = true

/-- How many of the open pins are of a page. -/
def count (pins : Dict ℕ Pin) (key : PageKey) : ℕ := pins.entries.countP fun e => key = e.2.key

end Session

/-- The accesses of clients that keep to the pool's protocol: pages of open files are fetched, only
open pins are used, and a pin that was written under is ended as dirty. -/
def Access.Allowed (s : Session) : Access → Prop
  | .fetch fileId pageNum _ => (s.storage.diskMgr.path fileId).isSome ∧ pageNum ≠ INVALID_PAGE_ID
  | .write n _ => (s.pins.find? n).isSome
  | .unpin n isDirty => ∃ pin, s.pins.find? n = some pin ∧ (pin.wrote = true → isDirty = true)
  | .flush _ _ => True
  | .flushAll => True

/-- The pages as a memory, with the pages of the open pins. -/
structure Memory where
  pages : PageKey → Page
  pins : ℕ → Option PageKey
  next : ℕ

/-- One access of the memory: a fetch gives the page; it may fail when there are `poolSize` pages
pinned. -/
inductive MemStep (poolSize : ℕ) : Memory → Access → Option Page → Memory → Prop
  | fetch {m f p w} : MemStep poolSize m (.fetch f p w) (some (m.pages (f, p)))
      { m with pins := Function.update m.pins m.next (some (f, p)), next := m.next + 1 }
  | full {m f p w} {keys : List PageKey} : keys.Nodup → keys.length = poolSize →
      (∀ key ∈ keys, ∃ n, m.pins n = some key) → MemStep poolSize m (.fetch f p w) none m
  | write {m n data key} : m.pins n = some key → MemStep poolSize m (.write n data) none
      { m with pages := Function.update m.pages key data }
  | unpin {m n isDirty} : MemStep poolSize m (.unpin n isDirty) none
      { m with pins := Function.update m.pins n none }
  | flush {m f p} : MemStep poolSize m (.flush f p) none m
  | flushAll {m} : MemStep poolSize m .flushAll none m

namespace Session

variable {d : DiskManager} {s : Session} {m : Memory} {poolSize : ℕ}

/-- The pool with its open pins represents a memory. -/
structure Represents (d : DiskManager) (poolSize : ℕ) (s : Session) (m : Memory) : Prop where
  paths : ∀ f, s.storage.diskMgr.path f = d.path f
  coherent : Coherent m.pages (Written s.pins) none s.storage
  size : s.storage.bufferPool.poolSize = poolSize
  unique : s.pins.Unique
  frames : ∀ {n pin}, s.pins.find? n = some pin →
    s.storage.bufferPool.pageTable.find? pin.key = some pin.frameIdx
  counts : ∀ key, s.storage.pinsOf key = count s.pins key
  fresh : s.pins.find? s.next = none ∧ ∀ {n pin}, s.pins.find? n = some pin → n < s.next
  pins : ∀ n, m.pins n = (s.pins.find? n).map Pin.key
  next : m.next = s.next

theorem count_insert_fresh {pins : Dict ℕ Pin} {n : ℕ} (h : pins.find? n = none) (pin : Pin)
    (key : PageKey) :
    count (pins.insert n pin) key = count pins key + if key = pin.key then 1 else 0 := by
  unfold count
  rw [Dict.countP_insert, Dict.erase_eq_self h]
  simp only [decide_eq_true_eq]

theorem count_erase {pins : Dict ℕ Pin} (hu : pins.Unique) {n : ℕ} {pin : Pin}
    (h : pins.find? n = some pin) (key : PageKey) :
    count (pins.erase n) key + (if key = pin.key then 1 else 0) = count pins key := by
  have herase := Dict.countP_erase hu h fun e => key = e.2.key
  simp only [decide_eq_true_eq] at herase
  exact herase

/-- An open pin counts. -/
theorem count_ne_zero {pins : Dict ℕ Pin} (hu : pins.Unique) {n : ℕ} {pin : Pin}
    (h : pins.find? n = some pin) : count pins pin.key ≠ 0 := by
  have := count_erase hu h pin.key
  rw [if_pos rfl] at this
  omega

/-- A page that counts has an open pin. -/
theorem exists_pin {pins : Dict ℕ Pin} (hu : pins.Unique) {key : PageKey}
    (h : count pins key ≠ 0) : ∃ n pin, pins.find? n = some pin ∧ pin.key = key := by
  obtain ⟨⟨n, pin⟩, hmem, hkey⟩ := List.countP_pos_iff.mp (Nat.pos_of_ne_zero h)
  exact ⟨n, pin, (Dict.mem_iff hu).mp hmem, (of_decide_eq_true hkey).symm⟩

namespace Represents

/-- A call that returns, as a step. -/
theorem call_of_wp {x : Program Storage Fault Unit} {Q : Storage → Prop}
    (h : wp (fun _ => False) x (fun _ => Q) s.storage) :
    ∃ storage, s.call x = .ok ({ s with storage := storage }, none) ∧ Q storage := by
  obtain ⟨⟨⟩, storage, hrun, hQ⟩ := wp_total.mp h
  exact ⟨storage, by rw [call, hrun], hQ⟩

/-- A step of the storage that leaves its pins. -/
theorem still (h : Represents d poolSize s m) {storage : Storage}
    (hc : Coherent m.pages (Written s.pins) none storage) (hkeeps : Keeps s.storage storage)
    (hpins : ∀ key, storage.pinsOf key = s.storage.pinsOf key) :
    Represents d poolSize { s with storage := storage } m where
  paths f := (hkeeps.paths f).trans (h.paths f)
  coherent := hc
  size := hkeeps.size.trans h.size
  unique := h.unique
  frames hn := by
    refine (hkeeps.frames ?_).trans (h.frames hn)
    rw [h.counts]
    exact count_ne_zero h.unique hn
  counts key := (hpins key).trans (h.counts key)
  fresh := h.fresh
  pins := h.pins
  next := h.next

/-- A page fetched under a new pin. -/
theorem gained (h : Represents d poolSize s m) {storage : Storage} {key : PageKey} {i : ℕ}
    (hc : Coherent m.pages (Written s.pins) none storage) (hg : Coherent.Gained key i s.storage storage) :
    Represents d poolSize ⟨storage, s.pins.insert s.next ⟨key, i, false⟩, s.next + 1⟩
      { m with pins := Function.update m.pins m.next (some key), next := m.next + 1 } := by
  obtain ⟨hfresh, hlt⟩ := h.fresh
  have hcases : ∀ {n pin}, (s.pins.insert s.next ⟨key, i, false⟩).find? n = some pin →
      (n = s.next ∧ pin = ⟨key, i, false⟩) ∨ s.pins.find? n = some pin :=
    Dict.eq_or_find?_of_find?_insert
  have hwritten : ∀ key', Written (s.pins.insert s.next ⟨key, i, false⟩) key' ↔
      Written s.pins key' := by
    intro key'
    constructor
    · rintro ⟨n, pin, hn, hkey, hw⟩
      rcases hcases hn with ⟨-, rfl⟩ | hn
      · cases hw
      · exact ⟨n, pin, hn, hkey, hw⟩
    · rintro ⟨n, pin, hn, hkey, hw⟩
      refine ⟨n, pin, ?_, hkey, hw⟩
      rw [Dict.find?_insert_of_ne _ _ (Nat.ne_of_lt (hlt hn))]
      exact hn
  refine { paths := fun f => (hg.keeps.paths f).trans (h.paths f),
           coherent := ?coherent, size := hg.keeps.size.trans h.size,
           unique := h.unique.insert _ _, frames := ?frames, counts := ?counts,
           fresh := ⟨?absent, ?below⟩, pins := ?pins, next := congrArg (· + 1) h.next }
  case coherent =>
    have heq : Written (s.pins.insert s.next ⟨key, i, false⟩) = Written s.pins :=
      funext fun key' => propext (hwritten key')
    rw [heq]
    exact hc
  case frames =>
    intro n pin hn
    rcases hcases hn with ⟨-, rfl⟩ | hn
    · exact hg.table
    · refine (hg.keeps.frames ?_).trans (h.frames hn)
      rw [h.counts]
      exact count_ne_zero h.unique hn
  case counts =>
    intro key'
    rw [count_insert_fresh hfresh, ← h.counts]
    exact hg.pins key'
  case absent =>
    rw [Dict.find?_insert_of_ne _ _ (Nat.succ_ne_self _)]
    cases hn : s.pins.find? (s.next + 1) with
    | none => rfl
    | some pin => exact absurd (hlt hn) (by omega)
  case below =>
    intro n pin hn
    rcases hcases hn with ⟨rfl, -⟩ | hn
    · exact Nat.lt_succ_self _
    · exact Nat.lt_succ_of_lt (hlt hn)
  case pins =>
    intro n
    show Function.update m.pins m.next (some key) n = _
    rw [Function.update_apply, Dict.find?_insert, h.next]
    split
    case isTrue => rfl
    case isFalse => exact h.pins n

/-- A pool without a frame has as many pages pinned as it has frames. -/
theorem pinned_of_full (h : Represents d poolSize s m) (hfull : Coherent.Full s.storage) :
    ∃ keys : List PageKey, keys.Nodup ∧ keys.length = poolSize ∧
      ∀ key ∈ keys, ∃ n, m.pins n = some key := by
  have hpinned : ∀ i < poolSize, ∃ key, s.storage.bufferPool.pageTable.find? key = some i ∧
      ∃ n, m.pins n = some key := by
    intro i hi
    rcases h.coherent.tracks.room (h.size ▸ hi) (by simp) with hmem | ⟨key, hk⟩
    · rw [hfull.1] at hmem; cases hmem
    · refine ⟨key, hk, ?_⟩
      have hcount : count s.pins key ≠ 0 := by
        rw [← h.counts, pinsOf_of_cached hk]
        intro hzero
        have hlru := h.coherent.tracks.lru.mpr ⟨⟨key, hk⟩, hzero⟩
        rw [unpinned, List.getLast?_eq_none_iff.mp hfull.2] at hlru
        cases hlru
      obtain ⟨n, pin, hn, hkey⟩ := exists_pin h.unique hcount
      exact ⟨n, by rw [h.pins, hn, Option.map_some, hkey]⟩
  choose! key hkey hopen using hpinned
  refine ⟨(List.range poolSize).map key, ?_, by simp, ?_⟩
  · refine List.Nodup.map_on ?_ List.nodup_range
    intro i hi j hj heq
    have hi' := hkey i (List.mem_range.mp hi)
    rw [heq, hkey j (List.mem_range.mp hj)] at hi'
    exact (Option.some.inj hi').symm
  · intro k hk
    obtain ⟨i, hi, rfl⟩ := List.mem_map.mp hk
    exact hopen i (List.mem_range.mp hi)

/-- A page written under a pin. -/
theorem written (h : Represents d poolSize s m) {n : ℕ} {pin : Pin} (hn : s.pins.find? n = some pin)
    {storage : Storage} {data : Page}
    (hc : Coherent (Function.update m.pages pin.key data)
      (fun key => Written s.pins key ∨ key = pin.key) none storage)
    (hstill : Still s.storage storage) :
    Represents d poolSize ⟨storage, s.pins.insert n { pin with wrote := true }, s.next⟩
      { m with pages := Function.update m.pages pin.key data } := by
  have hfind : ∀ n', (s.pins.insert n { pin with wrote := true }).find? n' =
      if n' = n then some { pin with wrote := true } else s.pins.find? n' :=
    fun n' => Dict.find?_insert ..
  have hcases : ∀ {n' pin'}, (s.pins.insert n { pin with wrote := true }).find? n' = some pin' →
      ∃ pin₀, s.pins.find? n' = some pin₀ ∧ pin'.key = pin₀.key ∧ pin'.frameIdx = pin₀.frameIdx ∧
        (pin'.wrote = true → pin₀.wrote = true ∨ pin'.key = pin.key) := by
    intro n' pin' hn'
    rcases Dict.eq_or_find?_of_find?_insert hn' with ⟨rfl, rfl⟩ | hn'
    · exact ⟨pin, hn, rfl, rfl, fun _ => Or.inr rfl⟩
    · exact ⟨pin', hn', rfl, rfl, Or.inl⟩
  have hwritten : ∀ key, Written (s.pins.insert n { pin with wrote := true }) key ↔
      Written s.pins key ∨ key = pin.key := by
    intro key
    constructor
    · rintro ⟨n', pin', hn', hkey, hw⟩
      obtain ⟨pin₀, hn₀, hkey₀, -, hmark⟩ := hcases hn'
      rcases hmark hw with hw₀ | hsame
      · exact Or.inl ⟨n', pin₀, hn₀, hkey₀ ▸ hkey, hw₀⟩
      · exact Or.inr (hkey ▸ hsame)
    · rintro (⟨n', pin', hn', hkey, hw⟩ | rfl)
      · by_cases heq : n' = n
        · refine ⟨n, { pin with wrote := true }, by rw [hfind, if_pos rfl], ?_, rfl⟩
          rw [← hkey, Option.some.inj (hn.symm.trans (heq ▸ hn'))]
        · exact ⟨n', pin', by rw [hfind, if_neg heq]; exact hn', hkey, hw⟩
      · exact ⟨n, { pin with wrote := true }, by rw [hfind, if_pos rfl], rfl, rfl⟩
  refine { paths := fun f => (hstill.paths f).trans (h.paths f),
           coherent := ?coherent, size := hstill.size.trans h.size,
           unique := h.unique.insert _ _, frames := ?frames, counts := ?counts,
           fresh := ⟨?absent, ?below⟩, pins := ?pins, next := h.next }
  case coherent =>
    have heq : Written (s.pins.insert n { pin with wrote := true }) =
        fun key => Written s.pins key ∨ key = pin.key :=
      funext fun key => propext (hwritten key)
    rw [heq]
    exact hc
  case frames =>
    intro n' pin' hn'
    obtain ⟨pin₀, hn₀, hkey, hframe, -⟩ := hcases hn'
    rw [hkey, hframe, hstill.table]
    exact h.frames hn₀
  case counts =>
    intro key
    rw [hstill.pinsOf, h.counts, ← count_erase h.unique hn]
    unfold count
    rw [Dict.countP_insert]
    simp only [decide_eq_true_eq]
  case absent =>
    rw [hfind, if_neg]
    · exact h.fresh.1
    · intro heq
      have hfresh := h.fresh.1
      rw [heq, hn] at hfresh
      cases hfresh
  case below =>
    intro n' pin' hn'
    obtain ⟨pin₀, hn₀, -⟩ := hcases hn'
    exact h.fresh.2 hn₀
  case pins =>
    intro n'
    rw [hfind]
    split
    case isTrue heq => rw [heq, h.pins, hn]; rfl
    case isFalse => exact h.pins n'

/-- A pin ended. -/
theorem ended (h : Represents d poolSize s m) {n : ℕ} {pin : Pin} (hn : s.pins.find? n = some pin)
    {storage : Storage} (hc : Coherent m.pages (Written (s.pins.erase n)) none storage)
    (hkeeps : Keeps s.storage storage)
    (hpins : ∀ key, storage.pinsOf key = s.storage.pinsOf key - if key = pin.key then 1 else 0) :
    Represents d poolSize ⟨storage, s.pins.erase n, s.next⟩
      { m with pins := Function.update m.pins n none } := by
  have hold : ∀ {n' pin'}, (s.pins.erase n).find? n' = some pin' → s.pins.find? n' = some pin' :=
    Dict.find?_of_find?_erase
  exact {
    paths := fun f => (hkeeps.paths f).trans (h.paths f)
    coherent := hc
    size := hkeeps.size.trans h.size
    unique := h.unique.erase n
    frames := by
      intro n' pin' hn'
      -- The pages of the other open pins stay in their frames, since they are pinned.
      refine (hkeeps.frames ?_).trans (h.frames (hold hn'))
      rw [h.counts]
      exact count_ne_zero h.unique (hold hn')
    counts := by
      intro key
      rw [hpins, h.counts, ← count_erase h.unique hn, Nat.add_sub_cancel]
    fresh := by
      refine ⟨?_, fun hn' => h.fresh.2 (hold hn')⟩
      rw [Dict.find?_erase, h.fresh.1, ite_self]
    pins := by
      intro n'
      show Function.update m.pins n none n' = _
      rw [Function.update_apply, Dict.find?_erase]
      split
      case isTrue => rfl
      case isFalse => exact h.pins n'
    next := h.next }

/-- The pages still written under an open pin when a pin is ended. -/
theorem unpin_written (h : Represents d poolSize s m) {n : ℕ} {pin : Pin}
    (hn : s.pins.find? n = some pin) {isDirty : Bool} (hw : pin.wrote = true → isDirty = true) :
    (∀ key, Written (s.pins.erase n) key → Written s.pins key) ∧
    (∀ key, Written s.pins key →
      Written (s.pins.erase n) key ∨ key = (pin.key.1, pin.key.2) ∧ isDirty = true) ∧
    (Written (s.pins.erase n) (pin.key.1, pin.key.2) →
      s.storage.pinsOf (pin.key.1, pin.key.2) ≠ 1) := by
  refine ⟨?_, ?_, ?_⟩
  · rintro key ⟨n', pin', hn', hkey, hw'⟩
    exact ⟨n', pin', Dict.find?_of_find?_erase hn', hkey, hw'⟩
  · rintro key ⟨n', pin', hn', hkey, hw'⟩
    by_cases heq : n' = n
    · obtain rfl := Option.some.inj (hn.symm.trans (heq ▸ hn'))
      exact Or.inr ⟨hkey.symm, hw hw'⟩
    · exact Or.inl ⟨n', pin', by rw [Dict.find?_erase_of_ne _ heq]; exact hn', hkey, hw'⟩
  · -- Another open pin of the page is left, so there were two.
    rintro ⟨n', pin', hn', hkey, -⟩
    have hleft : count (s.pins.erase n) pin.key ≠ 0 := by
      have := count_ne_zero (h.unique.erase n) hn'
      rwa [show pin'.key = pin.key from hkey] at this
    have htotal := count_erase h.unique hn pin.key
    rw [if_pos rfl, ← h.counts] at htotal
    show s.storage.pinsOf pin.key ≠ 1
    omega

end Represents

/-- A disk manager whose open files are different files. -/
structure Separate (d : DiskManager) : Prop where
  nonneg : ∀ {f path}, d.path f = some path → 0 ≤ f
  apart : ∀ {f g path}, d.path f = some path → d.path g = some path → f = g

/-- The memory over a disk before a page is fetched. -/
def memory (d : DiskManager) : Memory := ⟨d.page, fun _ => none, 0⟩

theorem represents_new (h : Separate d) (poolSize : ℕ) :
    Represents d poolSize (new d poolSize) (memory d) where
  paths _ := rfl
  coherent := by
    have hnone : Written .empty = fun _ => False := by
      refine funext fun key => propext ⟨?_, False.elim⟩
      rintro ⟨n, pin, hn, -⟩
      cases hn
    have hnew := coherent_new poolSize h.nonneg h.apart
    rwa [← hnone] at hnew
  size := rfl
  unique := Dict.unique_empty
  frames hn := by cases hn
  counts _ := rfl
  fresh := ⟨rfl, fun hn => by cases hn⟩
  pins _ := rfl
  next := rfl

/-- Every access is a step of the memory. -/
theorem step_simulates (d : DiskManager) (poolSize : ℕ) :
    Machine.Simulates Access.Allowed step (MemStep poolSize) (Represents d poolSize)
      fun _ => False := by
  intro s m a h hallowed
  refine Or.inr ?_
  cases a with
  | fetch f p w =>
    obtain ⟨hopen, hp⟩ := hallowed
    obtain ⟨path, hpath⟩ := Option.isSome_iff_exists.mp hopen
    by_cases hfull : s.storage.bufferPool.pageTable.find? (f, p) = none ∧ Coherent.Full s.storage
    · obtain ⟨storage, hrun, hc, hkeeps, hpins⟩ := h.coherent.fetch_full hfull.1 hfull.2 w
      obtain ⟨keys, hnodup, hlen, hpinned⟩ := h.pinned_of_full hfull.2
      exact ⟨{ s with storage := storage }, none, m, by simp only [step, hrun, if_true],
        .full hnodup hlen hpinned, h.still hc hkeeps hpins⟩
    · have hwp : wp (fun _ => False) (fetchPage f p w) (fun j s' =>
          Coherent m.pages (Written s.pins) none s' ∧ Coherent.Gained (f, p) j s.storage s')
          s.storage := by
        cases hk : s.storage.bufferPool.pageTable.find? (f, p) with
        | some i => exact h.coherent.fetch_hit hk w
        | none => exact h.coherent.fetch_miss hpath hp hk (fun hf => hfull ⟨hk, hf⟩) w
      obtain ⟨i, storage, hrun, hc, hg⟩ := wp_total.mp hwp
      refine ⟨_, _, _, by simp only [step, hrun]; rfl, ?_, h.gained hc hg⟩
      rw [hc.data_eq hg.table]
      exact .fetch
  | write n data =>
    obtain ⟨pin, hn⟩ := Option.isSome_iff_exists.mp hallowed
    have hpin : (s.storage.bufferPool.frames pin.frameIdx).pinCount ≠ 0 := by
      rw [← pinsOf_of_cached (h.frames hn), h.counts]
      exact count_ne_zero h.unique hn
    have hwp := h.coherent.setPageData (h.frames hn) hpin data
    obtain ⟨storage, hcall, hc, hstill⟩ := Represents.call_of_wp
      (s := { s with pins := s.pins.insert n { pin with wrote := true } }) hwp
    refine ⟨_, _, _, by simp only [step, hn]; exact hcall, .write ?_, h.written hn hc hstill⟩
    rw [h.pins, hn, Option.map_some]
  | unpin n isDirty =>
    obtain ⟨pin, hn, hw⟩ := hallowed
    have hpin : s.storage.pinsOf (pin.key.1, pin.key.2) ≠ 0 := by
      rw [h.counts]
      exact count_ne_zero h.unique hn
    -- A pin that wrote is given back as dirty, or another pin of the page still says so.
    obtain ⟨hle, hleft, hopen⟩ := h.unpin_written hn hw
    have hwp := h.coherent.unpinPage hpin isDirty hle hleft hopen
    obtain ⟨storage, hcall, hc, hkeeps, hpins⟩ := Represents.call_of_wp
      (s := { s with pins := s.pins.erase n }) hwp
    exact ⟨_, _, _, by simp only [step, hn]; exact hcall, .unpin, h.ended hn hc hkeeps hpins⟩
  | flush f p =>
    obtain ⟨storage, hcall, hc, hstill⟩ := Represents.call_of_wp (h.coherent.flushPage f p)
    exact ⟨_, _, _, hcall, .flush, h.still hc hstill.keeps hstill.pinsOf⟩
  | flushAll =>
    obtain ⟨storage, hcall, hc, hstill, -⟩ := Represents.call_of_wp h.coherent.flushAllPages
    exact ⟨_, _, _, hcall, .flushAll, h.still hc hstill.keeps hstill.pinsOf⟩

/-- Without an open pin `flushAllPages` leaves the memory on the disk. -/
theorem Represents.flushed (h : Represents d poolSize s m) (hidle : ∀ n, s.pins.find? n = none) :
    ∃ storage, flushAllPages.run s.storage = (.ok (), storage) ∧
      ∀ key, (d.path key.1).isSome → storage.diskMgr.page key = m.pages key := by
  have hnone : Written s.pins = fun _ => False := by
    refine funext fun key => propext ⟨?_, False.elim⟩
    rintro ⟨n, pin, hn, -⟩
    rw [hidle] at hn
    cases hn
  obtain ⟨⟨⟩, storage, hrun, hc, hstill, hclean⟩ := wp_total.mp h.coherent.flushAllPages
  rw [hnone] at hc
  refine ⟨storage, hrun, fun key hopen => ?_⟩
  obtain ⟨path, hpath⟩ := Option.isSome_iff_exists.mp hopen
  exact hc.disk_of_clean hclean (((hstill.paths _).trans (h.paths _)).trans hpath)

end Session

/-- Every run of clients that keep to the protocol is a run of the memory: it never faults, and
every fetch that succeeds gives the page as it was last written. When no pin is open,
`flushAllPages` leaves every page on the disk as it was last written. -/
theorem Access.run_is_memory {d : DiskManager} (hd : Session.Separate d) {poolSize : ℕ}
    (accesses : List Access)
    (hallowed : Machine.Meets Access.Allowed Session.step (Session.new d poolSize) accesses) :
    ∃ s outputs m, Machine.run Session.step (Session.new d poolSize) accesses = .ok (s, outputs) ∧
      Machine.Steps (MemStep poolSize) (Session.memory d) accesses outputs m ∧
      ((∀ n, s.pins.find? n = none) →
        ∃ storage, flushAllPages.run s.storage = (.ok (), storage) ∧
          ∀ key, (d.path key.1).isSome → storage.diskMgr.page key = m.pages key) := by
  rcases Machine.run_simulates (Session.step_simulates d poolSize) accesses _ _
    (Session.represents_new hd poolSize) hallowed with ⟨_, hfalse, _⟩ | ⟨s, outputs, m, hrun, hsteps, h⟩
  · exact hfalse.elim
  · exact ⟨s, outputs, m, hrun, hsteps, h.flushed⟩

/-- The disk manager with a single open file. -/
def Session.oneFile : DiskManager :=
  ⟨fun _ => some .empty, Dict.empty.insert 1 ⟨DiskManager.fullPath (lit "t.db"), 0⟩, 2⟩

theorem Session.separate_oneFile : Session.Separate Session.oneFile := by
  have hone : ∀ {f path}, Session.oneFile.path f = some path → f = 1 := by
    intro f path h
    unfold DiskManager.path Session.oneFile at h
    obtain ⟨handle, hfind, -⟩ := Option.map_eq_some_iff.mp h
    rcases Dict.eq_or_find?_of_find?_insert hfind with ⟨rfl, -⟩ | hnone
    · rfl
    · cases hnone
  exact ⟨fun h => by rw [hone h]; decide, fun hf hg => (hone hf).trans (hone hg).symm⟩

/-- A page written and, with one frame, evicted before it is fetched again. -/
def Access.writeEvictFetch : List Access :=
  [.fetch 1 0 false, .write 0 (fun _ => 7), .unpin 0 true, .fetch 1 5 false, .unpin 1 false,
    .fetch 1 0 false, .unpin 2 false]

theorem Access.run_is_memory_eviction :
    ∃ s outputs m, Machine.run Session.step (Session.new Session.oneFile 1)
        Access.writeEvictFetch = .ok (s, outputs) ∧
      Machine.Steps (MemStep 1) (Session.memory Session.oneFile) Access.writeEvictFetch outputs m ∧
      ((∀ n, s.pins.find? n = none) →
        ∃ storage, flushAllPages.run s.storage = (.ok (), storage) ∧
          ∀ key, (Session.oneFile.path key.1).isSome →
            storage.diskMgr.page key = m.pages key) := by
  refine Access.run_is_memory Session.separate_oneFile Access.writeEvictFetch ?_
  unfold Access.writeEvictFetch
  refine .cons_ok ⟨rfl, by decide⟩ rfl ?_
  refine .cons_ok rfl rfl ?_
  refine .cons_ok ⟨_, rfl, fun _ => rfl⟩ rfl ?_
  refine .cons_ok ⟨rfl, by decide⟩ rfl ?_
  refine .cons_ok ⟨_, rfl, nofun⟩ rfl ?_
  refine .cons_ok ⟨rfl, by decide⟩ rfl ?_
  exact .cons_ok ⟨_, rfl, nofun⟩ rfl .nil

end MiniDB
