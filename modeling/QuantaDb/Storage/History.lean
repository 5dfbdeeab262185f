import QuantaDb.Lib.Redo
import QuantaDb.Storage.Machine

/-!
# QuantaDb.Storage.History

The changes a store has logged, page by page, as histories of
`QuantaDb.Lib.Redo`.

A history is a list of batches of numbered changes; `onPage` picks out those of
one page and `imageOf` is the page they make.  `imageOf_value` says that this is
the payload of `contents`, so everything proved about images is about what a
caller reads.
-/

namespace QuantaDb

open Redo

/-- The change a logged write makes, without its number. -/
def CommittedWrite.change (w : CommittedWrite) : Change := ⟨w.pageId, w.payload, w.appendAt⟩

/-- The write leaves a page that fits its block, if it finds one. -/
def CommittedWrite.Fits (w : CommittedWrite) : Prop :=
  match w.appendAt with
  | some offset => offset.toNat + w.payload.length ≤ maxPagePayload
  | none => w.payload.length ≤ maxPagePayload

variable {w : CommittedWrite}

theorem CommittedWrite.length_apply_le (h : w.Fits) {base : Option Bytes}
    (hbase : ∀ bytes ∈ base, bytes.length ≤ maxPagePayload) :
    (w.apply base).length ≤ maxPagePayload := by
  unfold CommittedWrite.Fits at h
  unfold CommittedWrite.apply
  cases hw : w.appendAt with
  | none => simpa [hw] using h
  | some offset =>
    simp only [hw] at h
    rw [length_splice]
    cases base with
    | none => simp; omega
    | some bytes =>
      have := hbase bytes rfl
      simp only [Option.getD_some]
      omega

/-- A full image does not look at the page it replaces. -/
theorem CommittedWrite.absolute_of_image (h : w.appendAt = none) :
    Absolute CommittedWrite.apply w := by
  intro v v'
  simp [CommittedWrite.apply, h]

/-! ## one page's changes -/

def onPage (id : PageId) (ws : List CommittedWrite) : List CommittedWrite :=
  ws.filter fun w => decide (w.pageId = id)

@[simp] theorem onPage_nil (id : PageId) : onPage id [] = [] := rfl

@[simp] theorem onPage_append (id : PageId) (xs ys : List CommittedWrite) :
    onPage id (xs ++ ys) = onPage id xs ++ onPage id ys := by
  simp [onPage]

variable {id : PageId}

theorem mem_onPage {ws : List CommittedWrite} :
    w ∈ onPage id ws ↔ w ∈ ws ∧ w.pageId = id := by
  simp [onPage]

theorem onPage_sublist {xs ys : List CommittedWrite} (h : xs.Sublist ys) (id : PageId) :
    (onPage id xs).Sublist (onPage id ys) :=
  h.filter _

theorem onPage_singleton_self (w : CommittedWrite) : onPage w.pageId [w] = [w] := by
  simp [onPage]

theorem onPage_singleton_of_ne (h : w.pageId ≠ id) :
    onPage id [w] = [] := by
  simp [onPage, h]

/-- A page's payload stamped with its LSN, or nothing. -/
abbrev Image := Option (Stamped Bytes)

/-- The page a run of changes to it makes. -/
abbrev imageOf (ws : List CommittedWrite) : Image :=
  latest CommittedWrite.lsn CommittedWrite.apply ws

/-- Redoing the changes `L` of a page onto `img` gives the page that `F` makes. -/
abbrev Rebuilds (id : PageId) (F L : List CommittedWrite) (img : Image) : Prop :=
  Redo.Rebuilds CommittedWrite.lsn CommittedWrite.apply (onPage id F) (onPage id L) img

def Page.stamped (page : Page) : Stamped Bytes := ⟨page.lsn, page.payload⟩

/-- What recovery makes of a slot's content: bytes that do not decode count as
absent. -/
def stampOf : Option PageImage → Image
  | some (.page page) => some page.stamped
  | some (.torn _) => none
  | none => none

@[simp] theorem stampOf_page (page : Page) : stampOf (some (.page page)) = some page.stamped := rfl

@[simp] theorem stampOf_none : stampOf none = none := rfl

@[simp] theorem stampOf_torn (reason : String) : stampOf (some (.torn reason)) = none := rfl

/-- A slot's content decodes and is the given image. -/
def Holds (current : Option PageImage) (img : Image) : Prop :=
  (∀ reason, current ≠ some (.torn reason)) ∧ stampOf current = img

theorem Holds.page {page : Page} {img : Image} (h : some page.stamped = img) :
    Holds (some (.page page)) img :=
  ⟨fun _ h => by simp at h, h⟩

/-! ## histories -/

/-- Batches of numbered changes, oldest first. -/
abbrev History := List (List CommittedWrite)

/-- The batches as they were given. -/
def History.given (H : History) : List Batch := H.map (List.map CommittedWrite.change)

@[simp] theorem History.length_given (H : History) : H.given.length = H.length := by
  simp [History.given]

/-- Changes are numbered in order, have a place in the data file, and fit. -/
structure Proper (F : List CommittedWrite) : Prop where
  ordered : Ordered CommittedWrite.lsn F
  placeable : ∀ w ∈ F, Placeable w.pageId
  fits : ∀ w ∈ F, w.Fits

variable {F : List CommittedWrite}

theorem Proper.sublist {G : List CommittedWrite} (h : Proper G) (hs : F.Sublist G) : Proper F :=
  ⟨h.ordered.sublist hs, fun w hw => h.placeable w (hs.subset hw),
    fun w hw => h.fits w (hs.subset hw)⟩

theorem Proper.onPage (h : Proper F) (id : PageId) :
    Ordered CommittedWrite.lsn (onPage id F) :=
  h.ordered.sublist List.filter_sublist

/-- A page with content has changes in the history. -/
theorem placeable_of_image (h : Proper F) {st : Stamped Bytes}
    (himg : imageOf (onPage id F) = some st) : Placeable id := by
  obtain ⟨w, hw, -⟩ := exists_mem_lsn_eq himg
  obtain ⟨hF, rfl⟩ := mem_onPage.mp hw
  exact h.placeable w hF

/-- A page that the data file cannot hold has no changes. -/
theorem imageOf_of_not_placeable (h : Proper F) (hid : ¬Placeable id) :
    imageOf (onPage id F) = none :=
  Option.eq_none_iff_forall_ne_some.mpr fun _ himg => hid (placeable_of_image h himg)

/-- The image of a page has the payload its changes leave. -/
theorem imageOf_value (h : Proper F) (id : PageId) :
    (imageOf (onPage id F)).map Stamped.value = payloadAfter none
    (F.map CommittedWrite.change) id := by
  rw [latest_value (h.onPage id)]
  simp only [replay, QuantaDb.onPage, List.foldl_filter, payloadAfter, List.foldl_map,
    decide_eq_true_eq]
  rfl

/-- **What a history shows**: the payload of each page is the one `contents`
gives. -/
theorem contents_given {H : History} (h : Proper H.flatten) (id : PageId) :
    contents H.given id = (imageOf (onPage id H.flatten)).map Stamped.value := by
  rw [imageOf_value h, contents, History.given, List.map_flatten]

theorem take_flatten_sublist (H : History) (n : Nat) :
    (H.take n).flatten.Sublist H.flatten := by
  conv => rhs; rw [← List.take_append_drop n H, List.flatten_append]
  exact List.sublist_append_left _ _

theorem flatten_take_append (H : History) {n m : Nat} (h : n ≤ m) :
    (H.take m).flatten = (H.take n).flatten ++ ((H.take m).drop n).flatten := by
  rw [← List.flatten_append]
  congr 1
  have := List.take_append_drop n (H.take m)
  rw [List.take_take, Nat.min_eq_left h] at this
  exact this.symm

end QuantaDb
