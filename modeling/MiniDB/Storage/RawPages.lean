import MiniDB.Foundations.Machine
import MiniDB.Storage.Files
import MiniDB.Storage.PageManager

/-!
# The page manager on files of pages

The calls of the page manager as functions of the pages of a file, whatever the bytes of these pages
are: which page an insertion picks and what it writes there, what a read and a scan find. The buffer
pool and the disk are out of sight from here on.

## Main definitions

* `Pages.firstFit`, `Pages.insert`: the page an insertion picks, and the pages after it
* `Pages.scan`: a scan of the pages

## Main results

* `Holds.createTable`, `Holds.insertTuple_exact`, `Holds.deleteTuple`: the calls that change the
  pages
* `Holds.readTuple`, `Holds.scanTable_exact`: the calls that read them
-/

namespace MiniDB

open Program

namespace Pages

/-- The first page with `n` free bytes by its header. -/
def firstFit (pages : List Page) (n : ℕ) : ℕ := pages.findIdx fun page => n ≤ page.freeSpace

/-- The pages with an initialised one at the end if none has room for `n` bytes. -/
def withRoom (pages : List Page) (n : ℕ) : List Page :=
  if firstFit pages n < pages.length then pages
  else pages ++ [PageManager.initPage pages.length]

/-- The slot that an insertion takes on a page. -/
def slotFor (page : Page) : Except Fault ℕ := do
  return (← PageManager.findEmptySlot page page.numSlots 0).getD page.numSlots

/-- A tuple on a page of its own at the end. -/
def append (pages : List Page) (bytes : Str) : Except Fault (List Page × RID) := do
  let page ← PageManager.placeTuple (PageManager.initPage pages.length) 0 bytes
  return (pages ++ [page.setNumSlots 1], ⟨pages.length, 0⟩)

/-- A tuple on the page `p`, or on a page of its own when the slots there are all in use. -/
def insertAt (pages : List Page) (p : ℕ) (page : Page) (bytes : Str) :
    Except Fault (List Page × RID) := do
  let slotIdx ← slotFor page
  if MAX_SLOTS_PER_PAGE ≤ slotIdx then append pages bytes
  else
    let page ← PageManager.placeTuple page slotIdx bytes
    return (pages.set p (if page.numSlots ≤ slotIdx then page.setNumSlots (slotIdx + 1) else page),
      ⟨p, slotIdx⟩)

/-- A tuple inserted: the pages after it, and the record identifier of its place. -/
def insert (pages : List Page) (bytes : Str) : Except Fault (List Page × RID) :=
  match (withRoom pages bytes.length)[firstFit pages bytes.length]? with
  | some page => insertAt (withRoom pages bytes.length) (firstFit pages bytes.length) page bytes
  | none => .error .io

/-- A scan of pages numbered from `p` on. -/
def scan {β : Type} (callback : β → RID → Str → ℕ → Except Fault (β × Bool)) :
    ℕ → List Page → β → Except Fault β
  | _, [], b => .ok b
  | p, page :: pages, b => do
    let (b, go) ← PageManager.scanSlots callback page p page.numSlots 0 b
    if go then scan callback (p + 1) pages b else return b

theorem firstFit_le (pages : List Page) (n : ℕ) : firstFit pages n ≤ pages.length :=
  List.findIdx_le_length

/-- The page that an insertion picks. -/
theorem page_of_firstFit (pages : List Page) (n : ℕ) :
    ∃ page, (withRoom pages n)[firstFit pages n]? = some page := by
  unfold withRoom
  split
  case isTrue hlt => exact ⟨_, List.getElem?_eq_getElem hlt⟩
  case isFalse hge =>
    rw [Nat.le_antisymm (firstFit_le pages n) (Nat.not_lt.mp hge)]
    exact ⟨_, List.getElem?_concat_length⟩

/-- A page as initialised has its first slot free. -/
theorem slotFor_initPage (pageId : ℕ) : slotFor (PageManager.initPage pageId) = .ok 0 := by
  have hzero : (PageManager.initPage pageId).numSlots = 0 := by
    unfold Page.numSlots PageManager.initPage Page.setFreeSpacePtr Page.setNumSlots
    rw [Block.field_setField_of_disjoint _ _ _ (by omega),
      Block.field_setField_self _ _ (by decide) (by decide)]
  unfold slotFor
  rw [hzero]
  rfl

theorem length_le_withRoom (pages : List Page) (n : ℕ) :
    pages.length ≤ (withRoom pages n).length := by
  unfold withRoom
  split
  · exact Nat.le_refl _
  · simp

/-- An insertion takes no page away. -/
theorem length_le_of_insert {pages pages' : List Page} {bytes : Str} {rid : RID}
    (h : insert pages bytes = .ok (pages', rid)) : pages.length ≤ pages'.length := by
  refine Nat.le_trans (length_le_withRoom pages bytes.length) ?_
  unfold insert at h
  split at h
  case h_2 => cases h
  case h_1 page hpage =>
    obtain ⟨slotIdx, -, h⟩ := Machine.bind_eq_ok.mp h
    split at h
    · obtain ⟨page', -, h⟩ := Machine.bind_eq_ok.mp h
      obtain ⟨rfl, -⟩ := Prod.mk.inj (Except.ok.inj h)
      simp
    · obtain ⟨page', -, h⟩ := Machine.bind_eq_ok.mp h
      obtain ⟨rfl, -⟩ := Prod.mk.inj (Except.ok.inj h)
      simp

section Scan

variable {β : Type} {callback : β → RID → Str → ℕ → Except Fault (β × Bool)} {I : β → Prop}

theorem scanSlots_invariant {page : Page} {p : ℕ}
    (hcall : ∀ {b b' i data len go}, I b → callback b ⟨p, i⟩ data len = .ok (b', go) → I b') :
    ∀ n {i b b' go}, I b → PageManager.scanSlots callback page p n i b = .ok (b', go) → I b'
  | 0, _, _, _, _, hb, h => by
    obtain ⟨rfl, -⟩ := Prod.mk.inj (Except.ok.inj h)
    exact hb
  | n + 1, i, b, b', go, hb, h => by
    unfold PageManager.scanSlots at h
    obtain ⟨len, -, h⟩ := Machine.bind_eq_ok.mp h
    split at h
    · obtain ⟨offset, -, h⟩ := Machine.bind_eq_ok.mp h
      obtain ⟨len', -, h⟩ := Machine.bind_eq_ok.mp h
      obtain ⟨⟨b₁, go₁⟩, hcb, h⟩ := Machine.bind_eq_ok.mp h
      have hb₁ := hcall hb hcb
      simp only at h
      split at h
      · exact scanSlots_invariant hcall n hb₁ h
      · obtain ⟨rfl, -⟩ := Prod.mk.inj (Except.ok.inj h)
        exact hb₁
    · exact scanSlots_invariant hcall n hb h

/-- What the callback keeps on the record identifiers of the pages. -/
theorem scan_invariant : ∀ (pages : List Page) {p : ℕ} {b b' : β},
    (∀ {b b' rid data len go}, rid.pageId < p + pages.length → I b →
      callback b rid data len = .ok (b', go) → I b') →
    I b → scan callback p pages b = .ok b' → I b'
  | [], _, _, _, _, hb, h => by
    obtain rfl := Except.ok.inj h
    exact hb
  | page :: pages, p, b, b', hcall, hb, h => by
    obtain ⟨⟨b₁, go⟩, hslots, h⟩ := Machine.bind_eq_ok.mp h
    have hb₁ : I b₁ := scanSlots_invariant (hcall (by simp)) page.numSlots hb hslots
    simp only at h
    split at h
    · refine scan_invariant pages (fun hlt => hcall ?_) hb₁ h
      rw [List.length_cons]
      omega
    · obtain rfl := Except.ok.inj h
      exact hb₁

end Scan

end Pages

namespace Storage

variable {F : Files} {s : Storage} {f : ℤ} {t : TableFile} {p i : ℕ} {page : Page} {bytes : Str}

namespace Holds

/-- The bytes of a fetched page changed, and the page unpinned. -/
theorem rewritePage (h : Holds F (some i) none s) (hF : F f = some t)
    (hi : Fetched f p i page true s) (page' : Page) {G : Fault → Prop} {Q : Unit → Storage → Prop}
    (hQ : ∀ s', Holds (Function.update F f (some ⟨t.path, t.pages.set p page'⟩)) none none s' →
      Q () s') :
    wp G (Storage.setPageData i page') (fun _ s' => wp G (Storage.unpinPage f p true) Q s') s := by
  refine wp_mono_total (h.setPageData hF hi page') ?_
  rintro - s₁ ⟨h₁, hi₁⟩
  exact wp_mono_total (h₁.unpinPage (Function.update_self ..) hi₁ true) fun _ => hQ

/-- A page of zeros allocated at the end of a file and fetched. -/
theorem allocatePage (h : Holds F none none s) (hF : F f = some t) :
    wp (AtLimit t.pages.length) (onDisk (DiskManager.allocateNewPage f) >>= fun n => do
        return (n, ← Storage.fetchPage f n true))
      (fun r s' => r.1 = t.pages.length ∧
        Holds (Function.update F f (some ⟨t.path, t.pages ++ [Block.zero]⟩)) (some r.2) none s' ∧
        Fetched f t.pages.length r.2 Block.zero true s') s := by
  rw [wp_bind]
  refine wp_mono (h.allocateNewPage hF) ?_
  rintro n s₁ ⟨rfl, h₁⟩
  have hlast : (t.pages ++ [Block.zero])[t.pages.length]? = some Block.zero := by simp
  rw [wp_bind]
  refine wp_mono_total (h₁.fetchPage (Function.update_self ..) hlast true) ?_
  rintro i s₂ ⟨h₂, hi⟩
  exact ⟨rfl, h₂, hi⟩

/-- A page with given bytes at the end of a file. -/
theorem set_last (pages : List Page) (old new : Page) :
    (pages ++ [old]).set pages.length new = pages ++ [new] := by simp

/-- The allocation of a page that is then initialised. -/
theorem newPage (h : Holds F none none s) (hF : F f = some t) :
    wp (AtLimit t.pages.length) (PageManager.newPage f) (fun n s' => n = t.pages.length ∧
      Holds (Function.update F f
        (some ⟨t.path, t.pages ++ [PageManager.initPage t.pages.length]⟩)) none none s') s := by
  have halloc := h.allocatePage hF
  simp only [wp_bind, wp_pure] at halloc
  simp only [PageManager.newPage, wp_bind]
  refine wp_mono halloc fun n s₁ h₁ => wp_mono h₁ ?_
  rintro i s₂ ⟨rfl, h₂, hi⟩
  refine h₂.rewritePage (Function.update_self ..) hi (PageManager.initPage t.pages.length) ?_
  intro s₃ h₃
  rw [Function.update_idem, set_last] at h₃
  exact ⟨rfl, h₃⟩

/-- The loop over the pages finds the first with room. -/
theorem findFreePageFrom (hF : F f = some t) (requiredSpace : ℕ) : ∀ n p s,
    Holds F none none s → p + n = t.pages.length →
    wp (fun _ => False) (PageManager.findFreePageFrom f requiredSpace n p)
      (fun o s' => o = ((t.pages.drop p).findIdx? fun page => requiredSpace ≤ page.freeSpace).map
        (· + p) ∧ Holds F none none s') s
  | 0, p, s, h, hp => by
    rw [List.drop_eq_nil_of_le (by omega)]
    exact ⟨rfl, h⟩
  | n + 1, p, s, h, hp => by
    have hlt : p < t.pages.length := by omega
    rw [PageManager.findFreePageFrom, wp_bind]
    refine wp_mono (h.fetchPage hF (List.getElem?_eq_getElem hlt) false) ?_
    rintro i s₁ ⟨h₁, hi⟩
    rw [wp_bind, wp_pageData, hi.data, wp_bind]
    refine wp_mono (h₁.unpinPage hF hi false) ?_
    intro _ s₂ h₂
    rw [List.drop_eq_getElem_cons hlt, List.findIdx?_cons]
    -- The page is unpinned again on both paths.
    by_cases hfit : requiredSpace ≤ t.pages[p].freeSpace
    · simp [hfit, h₂]
    · rw [if_neg hfit]
      refine wp_mono (findFreePageFrom hF requiredSpace n (p + 1) s₂ h₂ (by omega)) ?_
      rintro o s₃ ⟨rfl, h₃⟩
      refine ⟨?_, h₃⟩
      simp only [hfit, decide_false, Bool.false_eq_true, if_false, Option.map_map]
      congr 1
      funext k
      simp only [Function.comp_apply]
      omega

theorem getFilePageCount (h : Holds F none none s) (hF : F f = some t) :
    s.diskMgr.getFilePageCount f = t.pages.length := by
  rw [DiskManager.getFilePageCount, (h.opened hF).handle]

/-- `findFreePage`: the first page with room, or a new one at the end. -/
theorem findFreePage (h : Holds F none none s) (hF : F f = some t) (n : ℕ) :
    wp (AtLimit t.pages.length) (PageManager.findFreePage f n)
      (fun p s' => p = Pages.firstFit t.pages n ∧
        Holds (Function.update F f (some ⟨t.path, Pages.withRoom t.pages n⟩)) none none s') s := by
  simp only [PageManager.findFreePage, wp_bind, wp_get, h.getFilePageCount hF]
  refine wp_mono_total (findFreePageFrom hF n _ 0 s h (Nat.zero_add _)) ?_
  rintro o s₁ ⟨ho, h₁⟩
  simp only [List.drop_zero, Nat.add_zero, Option.map_id'] at ho
  have hfit : Pages.firstFit t.pages n = o.getD t.pages.length := by
    rw [Pages.firstFit, List.findIdx_eq_getD_findIdx?, ← ho]
  cases o with
  | some p =>
    obtain ⟨hlt, -⟩ := List.findIdx?_eq_some_iff_getElem.mp ho.symm
    refine ⟨hfit.symm, ?_⟩
    rw [Pages.withRoom, if_pos (by rw [hfit]; exact hlt), Function.update_eq_self_iff.mpr hF.symm]
    exact h₁
  | none =>
    refine wp_mono (h₁.newPage hF) ?_
    rintro p s₂ ⟨rfl, h₂⟩
    refine ⟨hfit.symm, ?_⟩
    rw [Pages.withRoom, if_neg (by rw [hfit]; exact Nat.lt_irrefl _)]
    exact h₂

/-- The branch of `insertTuple` that puts the tuple on a new page. -/
theorem insertOnNewPage (h : Holds F none none s) (hF : F f = some t) (bytes : Str) :
    wp (fun e => AtLimit t.pages.length e ∨ Pages.append t.pages bytes = .error e)
      (PageManager.insertOnNewPage f bytes)
      (fun rid s' => ∃ pages, Pages.append t.pages bytes = .ok (pages, rid) ∧
        Holds (Function.update F f (some ⟨t.path, pages⟩)) none none s') s := by
  have halloc := h.allocatePage hF
  simp only [wp_bind, wp_pure] at halloc
  simp only [PageManager.insertOnNewPage, wp_bind]
  refine wp_mono (wp_weaken halloc fun _ => Or.inl) fun n s₁ h₁ =>
    wp_mono (wp_weaken h₁ fun _ => Or.inl) ?_
  rintro i s₂ ⟨rfl, h₂, hi⟩
  refine wp_mono_total (h₂.setPageData (Function.update_self ..) hi
    (PageManager.initPage t.pages.length)) ?_
  rintro - s₃ ⟨h₃, hi₃⟩
  rw [wp_pageData, hi₃.data, Pages.append]
  cases PageManager.placeTuple (PageManager.initPage t.pages.length) 0 bytes with
  | error e => exact Or.inr rfl
  | ok page =>
    rw [wp_lift_ok]
    refine h₃.rewritePage (Function.update_self ..) hi₃ (page.setNumSlots 1) ?_
    intro s₄ h₄
    rw [Function.update_idem, Function.update_idem, set_last, set_last] at h₄
    exact ⟨_, rfl, h₄⟩

/-- `insertTuple` does what the bytes of the pages make it do, unless the file cannot grow any
more. -/
theorem insertTuple_exact (h : Holds F none none s) (hF : F f = some t) {data : Str} {dataLen : ℕ}
    (hbytes : PageManager.bytesOf data dataLen = .ok bytes) (hlen : bytes.length = dataLen) :
    wp (fun e => AtLimit t.pages.length e ∨ Pages.insert t.pages bytes = .error e)
      (PageManager.insertTuple f data dataLen)
      (fun rid s' => ∃ pages, Pages.insert t.pages bytes = .ok (pages, rid) ∧
        Holds (Function.update F f (some ⟨t.path, pages⟩)) none none s') s := by
  subst hlen
  unfold Pages.insert
  simp only [PageManager.insertTuple, wp_bind, hbytes, wp_lift_ok]
  refine wp_mono (wp_weaken (h.findFreePage hF bytes.length) fun _ => Or.inl) ?_
  rintro p s₁ ⟨rfl, h₁⟩
  obtain ⟨page, hpage⟩ := Pages.page_of_firstFit t.pages bytes.length
  rw [hpage]
  refine wp_mono_total (h₁.fetchPage (Function.update_self ..) hpage true) ?_
  rintro i s₂ ⟨h₂, hi⟩
  rw [wp_pageData, hi.data]
  cases ho : PageManager.findEmptySlot page page.numSlots 0 with
  | error e =>
    refine Or.inr ?_
    simp only [Pages.insertAt, Pages.slotFor, ho]
    rfl
  | ok o =>
    have hslot : Pages.slotFor page = .ok (o.getD page.numSlots) := by
      simp only [Pages.slotFor, ho]
      rfl
    simp only [wp_lift_ok, Pages.insertAt, hslot, Machine.ok_bind]
    by_cases hfull : MAX_SLOTS_PER_PAGE ≤ o.getD page.numSlots
    case pos =>
      simp only [if_pos hfull, wp_bind]
      refine wp_mono_total (h₂.unpinPage (Function.update_self ..) hi false) ?_
      intro _ s₃ h₃
      -- A page that was just added has its slots free, so the page was one of the file.
      have hroom : Pages.withRoom t.pages bytes.length = t.pages := by
        by_contra hne
        have hfit : ¬ Pages.firstFit t.pages bytes.length < t.pages.length := by
          intro hlt
          exact hne (if_pos hlt)
        have hlen : Pages.firstFit t.pages bytes.length = t.pages.length :=
          Nat.le_antisymm (Pages.firstFit_le _ _) (Nat.not_lt.mp hfit)
        rw [Pages.withRoom, if_neg hfit, hlen, List.getElem?_concat_length] at hpage
        obtain rfl := Option.some.inj hpage
        rw [Except.ok.inj (hslot.symm.trans (Pages.slotFor_initPage _))] at hfull
        exact absurd hfull (by decide)
      rw [hroom] at h₃ ⊢
      rw [Function.update_eq_self_iff.mpr hF.symm] at h₃
      exact h₃.insertOnNewPage hF bytes
    case neg =>
      simp only [if_neg hfull]
      cases PageManager.placeTuple page (o.getD page.numSlots) bytes with
      | error e => exact Or.inr rfl
      | ok page' =>
        simp only [wp_bind, wp_lift_ok, Machine.ok_bind]
        refine h₂.rewritePage (Function.update_self ..) hi _ ?_
        intro s₃ h₃
        rw [Function.update_idem] at h₃
        exact ⟨_, rfl, h₃⟩

/-- `insertTuple`, unless the file cannot grow any more. -/
theorem insertTuple (h : Holds F none none s) (hF : F f = some t) {pages : List Page} {rid : RID}
    (hins : Pages.insert t.pages bytes = .ok (pages, rid)) :
    wp (AtLimit t.pages.length) (PageManager.insertTuple f bytes bytes.length) (fun r s' => r = rid ∧
      Holds (Function.update F f (some ⟨t.path, pages⟩)) none none s') s := by
  have hbytes : PageManager.bytesOf bytes bytes.length = .ok bytes := by
    rw [PageManager.bytesOf, if_pos (Nat.le_refl _), List.take_length]
  refine wp_mono (wp_weaken (h.insertTuple_exact hF hbytes rfl) ?_) ?_
  · rintro e (hlimit | herror)
    · exact hlimit
    · rw [hins] at herror
      cases herror
  · rintro r s' ⟨pages', heq, h'⟩
    obtain ⟨rfl, rfl⟩ := Prod.mk.inj (Except.ok.inj (hins.symm.trans heq))
    exact ⟨rfl, h'⟩

/-- `deleteTuple` on a page of the file. -/
theorem deleteTuple (h : Holds F none none s) (hF : F f = some t) {rid : RID}
    (hpage : t.pages[rid.pageId]? = some page) :
    wp (fun e => PageManager.clearSlot page rid.slotNum = .error e) (PageManager.deleteTuple f rid)
      (fun _ s' => ∃ page', PageManager.clearSlot page rid.slotNum = .ok page' ∧
        Holds (Function.update F f (some ⟨t.path, t.pages.set rid.pageId page'⟩)) none none s')
      s := by
  simp only [PageManager.deleteTuple, wp_bind]
  refine wp_mono_total (h.fetchPage hF hpage true) ?_
  rintro i s₁ ⟨h₁, hi⟩
  rw [wp_pageData, hi.data]
  cases PageManager.clearSlot page rid.slotNum with
  | error e => exact rfl
  | ok page' =>
    rw [wp_lift_ok]
    exact h₁.rewritePage hF hi page' fun s₂ h₂ => ⟨page', rfl, h₂⟩

/-- `createTable` on a path that no file in use has. -/
theorem createTable (h : Holds F none none s) {tableName : Str}
    (hpath : ∀ {g t}, F g = some t → t.path ≠ DiskManager.fullPath (tableName ++ lit ".db")) :
    wp (· = .io) (PageManager.createTable tableName) (fun f s' => F f = none ∧
      Holds (Function.update F f (some ⟨DiskManager.fullPath (tableName ++ lit ".db"),
        [PageManager.initPage 0]⟩)) none none s') s := by
  simp only [PageManager.createTable, wp_bind, wp_pure]
  refine wp_mono_total (h.createFile hpath) ?_
  rintro f s₁ ⟨rfl, h₁⟩
  refine wp_mono (wp_weaken (h₁.newPage (Function.update_self ..)) fun _ => And.left) ?_
  rintro n s₂ ⟨-, h₂⟩
  rw [Function.update_idem] at h₂
  exact ⟨h.none_of_fresh (Int.le_refl _), h₂⟩

/-- `readTuple` on a page of the file. -/
theorem readTuple (h : Holds F none none s) (hF : F f = some t) {rid : RID}
    (hpage : t.pages[rid.pageId]? = some page)
    (hbytes : PageManager.slotBytes page rid.slotNum = .ok bytes) :
    wp (fun _ => False) (PageManager.readTuple f rid)
      (fun r s' => r = bytes ∧ Holds F none none s') s := by
  simp only [PageManager.readTuple, wp_bind]
  refine wp_mono (h.fetchPage hF hpage false) ?_
  rintro i s₁ ⟨h₁, hi⟩
  rw [wp_pageData, hi.data, hbytes, wp_lift_ok]
  refine wp_mono (h₁.unpinPage hF hi false) ?_
  intro _ s₂ h₂
  exact ⟨rfl, h₂⟩

/-- `readTuple` on a page behind the end of the file: it reads a page of zeros. -/
theorem readTuple_beyond (h : Holds F none none s) (hF : F f = some t) {rid : RID}
    (hpage : t.pages.length ≤ rid.pageId)
    (hbytes : PageManager.slotBytes Block.zero rid.slotNum = .ok bytes) :
    wp (fun _ => False) (PageManager.readTuple f rid) (fun r _ => r = bytes) s := by
  simp only [PageManager.readTuple, wp_bind]
  refine wp_mono (h.fetch_beyond hF hpage false) ?_
  intro i s₁ hdata
  rw [wp_pageData, hdata, hbytes, wp_lift_ok]
  refine wp_mono (unpinPage_total f rid.pageId false) ?_
  intro _ _ _
  rfl

section Scan

variable {β : Type} {callback : β → RID → Str → ℕ → Except Fault (β × Bool)}

theorem scanPages (hF : F f = some t) : ∀ n p (b : β) s, Holds F none none s →
    p + n = t.pages.length →
    wp (fun e => Pages.scan callback p (t.pages.drop p) b = .error e)
      (PageManager.scanPages callback f n p b)
      (fun r s' => Pages.scan callback p (t.pages.drop p) b = .ok r ∧ Holds F none none s') s
  | 0, p, b, s, h, hp => by
    rw [List.drop_eq_nil_of_le (by omega)]
    exact ⟨rfl, h⟩
  | n + 1, p, b, s, h, hp => by
    have hlt : p < t.pages.length := by omega
    rw [List.drop_eq_getElem_cons hlt]
    simp only [PageManager.scanPages, wp_bind]
    refine wp_mono_total (h.fetchPage hF (List.getElem?_eq_getElem hlt) false) ?_
    rintro i s₁ ⟨h₁, hi⟩
    rw [wp_pageData, hi.data, Pages.scan]
    cases hslots : PageManager.scanSlots callback t.pages[p] p t.pages[p].numSlots 0 b with
    | error e => exact rfl
    | ok r =>
      obtain ⟨b₁, go⟩ := r
      rw [wp_lift_ok]
      refine wp_mono_total (h₁.unpinPage hF hi false) ?_
      intro _ s₂ h₂
      cases go with
      | true => exact scanPages hF n (p + 1) b₁ s₂ h₂ (by omega)
      | false => exact ⟨rfl, h₂⟩

/-- `scanTable` finds what the pages of the file have, and faults where their bytes make it. -/
theorem scanTable_exact (h : Holds F none none s) (hF : F f = some t) (b : β) :
    wp (fun e => Pages.scan callback 0 t.pages b = .error e) (PageManager.scanTable callback f b)
      (fun r s' => Pages.scan callback 0 t.pages b = .ok r ∧ Holds F none none s') s := by
  simp only [PageManager.scanTable, wp_bind, wp_get, h.getFilePageCount hF]
  exact scanPages hF _ 0 b s h (Nat.zero_add _)

/-- `scanTable` on the pages of the file. -/
theorem scanTable (h : Holds F none none s) (hF : F f = some t) {b b' : β}
    (hscan : Pages.scan callback 0 t.pages b = .ok b') :
    wp (fun _ => False) (PageManager.scanTable callback f b)
      (fun r s' => r = b' ∧ Holds F none none s') s := by
  have hexact : wp _ (PageManager.scanTable callback f b) _ s := h.scanTable_exact hF b
  rw [hscan] at hexact
  refine wp_mono (wp_weaken hexact fun e he => ?_) ?_
  · cases he
  · rintro r s' ⟨heq, h'⟩
    exact ⟨(Except.ok.inj heq).symm, h'⟩

end Scan

end Holds

end Storage

end MiniDB
