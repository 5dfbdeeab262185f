import Mathlib

/-!
# QuantaDb.Lib.Ordered

Lists in increasing order of a key, searched from the left.

`Increasing key l` says that the keys grow strictly along `l`.  `find` looks a key
up, `below` and `above` cut a list at a key.  `route` picks, among children that
are each reached from a bound on, the one that a key belongs to (`route_spec`).
-/

set_option linter.unusedSectionVars false

namespace Ordered

open Std

variable {α β K : Type} [LT K] [LE K] [IsLinearOrder K] [LawfulOrderLT K]

/-- The keys grow along the list. -/
def Increasing (key : α → K) (l : List α) : Prop := l.Pairwise fun a b => key a < key b

/-- `windows(2)`: each key is below the next. -/
def strict [DecidableLT K] : List K → Bool
  | a :: b :: rest => decide (a < b) && strict (b :: rest)
  | _ => true

theorem strict_iff [DecidableLT K] (keys : List K) :
    strict keys = true ↔ keys.Pairwise (· < ·) := by
  induction keys with
  | nil => simp [strict]
  | cons a keys ih =>
    cases keys with
    | nil => simp [strict]
    | cons b rest =>
      rw [strict, Bool.and_eq_true, ih, decide_eq_true_eq, List.pairwise_cons (a := a)]
      constructor
      · rintro ⟨hab, hrest⟩
        refine ⟨fun c hc => ?_, hrest⟩
        rcases List.mem_cons.mp hc with rfl | hc
        · exact hab
        · exact lt_trans hab ((List.pairwise_cons.mp hrest).1 c hc)
      · rintro ⟨hall, hrest⟩
        exact ⟨hall b List.mem_cons_self, hrest⟩

theorem strict_map_iff [DecidableLT K] (key : α → K) (l : List α) :
    strict (l.map key) = true ↔ Increasing key l := by
  rw [strict_iff, List.pairwise_map]
  rfl

theorem Increasing.append_iff {key : α → K} {l m : List α} :
    Increasing key (l ++ m) ↔
      Increasing key l ∧ Increasing key m ∧ ∀ a ∈ l, ∀ b ∈ m, key a < key b :=
  List.pairwise_append

/-! ## looking a key up -/

section Find

variable [DecidableEq K] (key : α → K)

/-- The element with a key. -/
def find (k : K) (l : List α) : Option α := l.find? fun a => key a == k

variable {key}

theorem find_append (k : K) (l m : List α) :
    find key k (l ++ m) = (find key k l).or (find key k m) := List.find?_append

theorem find_eq_none {k : K} {l : List α} : find key k l = none ↔ ∀ a ∈ l, key a ≠ k := by
  simp [find]

theorem find_none_of_lt {k : K} {l : List α} (h : ∀ a ∈ l, key a < k) : find key k l = none :=
  find_eq_none.mpr fun a ha heq => lt_irrefl (heq ▸ h a ha)

theorem find_none_of_gt {k : K} {l : List α} (h : ∀ a ∈ l, k < key a) : find key k l = none :=
  find_eq_none.mpr fun a ha heq => lt_irrefl (heq ▸ h a ha)

theorem find_cons_self (a : α) (l : List α) : find key (key a) (a :: l) = some a := by
  simp [find]

theorem find_eq_some {k : K} {l : List α} {a : α} (h : Increasing key l) :
    find key k l = some a ↔ a ∈ l ∧ key a = k := by
  constructor
  · intro hfind
    exact ⟨List.mem_of_find?_eq_some hfind, by simpa using List.find?_some hfind⟩
  · rintro ⟨ha, rfl⟩
    obtain ⟨s, t, rfl⟩ := List.append_of_mem ha
    have hs : ∀ b ∈ s, key b < key a := fun b hb =>
      (Increasing.append_iff.mp h).2.2 b hb a List.mem_cons_self
    rw [find_append, find_none_of_lt hs, Option.none_or, find_cons_self]

end Find

/-! ## cutting at a key -/

section Cut

variable [DecidableLT K] (key : α → K)

/-- The elements below a key. -/
def below (k : K) (l : List α) : List α := l.takeWhile fun a => decide (key a < k)

/-- The elements from a key on. -/
def above (k : K) (l : List α) : List α := l.dropWhile fun a => decide (key a < k)

variable {key}

theorem below_append_above (k : K) (l : List α) : below key k l ++ above key k l = l :=
  List.takeWhile_append_dropWhile

theorem lt_of_mem_below {k : K} {l : List α} {a : α} (h : a ∈ below key k l) : key a < k := by
  simpa using List.mem_takeWhile_imp h

theorem le_of_mem_above {k : K} {l : List α} (hl : Increasing key l) {a : α}
    (h : a ∈ above key k l) : k ≤ key a := by
  induction l with
  | nil => simp [above] at h
  | cons b l ih =>
    obtain ⟨hb, hl⟩ := List.pairwise_cons.mp hl
    unfold above at h
    by_cases hlt : key b < k
    · rw [List.dropWhile_cons_of_pos (by simpa using hlt)] at h
      exact ih hl h
    · rw [List.dropWhile_cons_of_neg (by simpa using hlt)] at h
      rcases List.mem_cons.mp h with rfl | h
      · exact not_lt.mp hlt
      · exact le_of_lt (lt_of_le_of_lt (not_lt.mp hlt) (hb a h))

end Cut

theorem find_above [DecidableLT K] [DecidableEq K] {key : α → K} (k : K) (l : List α) :
    find key k (above key k l) = find key k l := by
  have hnone : find key k (below key k l) = none :=
    find_none_of_lt fun a ha => lt_of_mem_below ha
  conv_rhs => rw [← below_append_above k l, find_append, hnone, Option.none_or]

/-! ## putting an element at a key -/

section Put

variable [DecidableLT K] [DecidableEq K] (key : α → K)

/-- The list with the element of a key replaced, added or taken out. -/
def put (k : K) (a : Option α) (l : List α) : List α :=
  below key k l ++ (a.toList ++ (above key k l).filter fun b => decide (key b ≠ k))

variable {key} {k : K} {a : Option α}

theorem mem_put {l : List α} {b : α} : b ∈ put key k a l ↔ (b ∈ l ∧ key b ≠ k) ∨ b ∈ a := by
  have hsplit : b ∈ l ↔ b ∈ below key k l ∨ b ∈ above key k l := by
    rw [← List.mem_append, below_append_above]
  simp only [put, List.mem_append, Option.mem_toList, List.mem_filter, decide_eq_true_eq]
  rw [hsplit]
  have hne : b ∈ below key k l → key b ≠ k := fun hb heq => lt_irrefl (heq ▸ lt_of_mem_below hb)
  tauto

/-- What is above a key and is not at it is behind it. -/
theorem lt_of_mem_filter_above {l : List α} (hl : Increasing key l) {b : α}
    (h : b ∈ (above key k l).filter fun b => decide (key b ≠ k)) : k < key b := by
  obtain ⟨hb, hne⟩ := List.mem_filter.mp h
  refine Std.lt_of_le_of_ne (le_of_mem_above hl hb) fun heq => ?_
  exact absurd heq.symm (by simpa using hne)

/-- Where the cut meets the key, the element there makes room. -/
theorem filter_above_eq {l m : List α} {b : α} (hl : Increasing key l)
    (h : above key k l = b :: m) (hb : key b = k) :
    (above key k l).filter (fun b => decide (key b ≠ k)) = m := by
  have hm : ∀ c ∈ m, key c ≠ k := by
    have hsub : Increasing key (below key k l ++ above key k l) := by rwa [below_append_above]
    have habove := (Increasing.append_iff.mp hsub).2.1
    rw [h] at habove
    intro c hc heq
    have hlt := (List.pairwise_cons.mp habove).1 c hc
    rw [hb, heq] at hlt
    exact Std.lt_irrefl hlt
  rw [h, List.filter_cons_of_neg (by simpa using hb)]
  exact List.filter_eq_self.mpr fun c hc => by simpa using hm c hc

/-- Where the cut does not meet the key, all stay. -/
theorem filter_above_self {l : List α} (hl : find key k l = none) :
    (above key k l).filter (fun b => decide (key b ≠ k)) = above key k l := by
  rw [← find_above, find_eq_none] at hl
  exact List.filter_eq_self.mpr fun c hc => by simpa using hl c hc

theorem increasing_put {l : List α} (hl : Increasing key l) (ha : ∀ b ∈ a, key b = k) :
    Increasing key (put key k a l) := by
  have hsub : Increasing key (below key k l ++ above key k l) := by rwa [below_append_above]
  obtain ⟨hbelow, habove, -⟩ := Increasing.append_iff.mp hsub
  have hfilter : Increasing key ((above key k l).filter fun b => decide (key b ≠ k)) :=
    habove.sublist List.filter_sublist
  rw [put, Increasing.append_iff, Increasing.append_iff]
  refine ⟨hbelow, ⟨?_, hfilter, fun b hb c hc => ?_⟩, fun b hb c hc => ?_⟩
  · cases a <;> simp [Increasing]
  · rw [ha b (Option.mem_toList.mp hb)]
    exact lt_of_mem_filter_above hl hc
  · rcases List.mem_append.mp hc with hc | hc
    · rw [ha c (Option.mem_toList.mp hc)]
      exact lt_of_mem_below hb
    · exact lt_trans (lt_of_mem_below hb) (lt_of_mem_filter_above hl hc)

/-- A list between smaller and larger elements. -/
theorem put_between {pre l post : List α} (hpre : ∀ b ∈ pre, key b < k)
    (hpost : ∀ b ∈ post, k < key b) :
    put key k a (pre ++ (l ++ post)) = pre ++ (put key k a l ++ post) := by
  have hnot : ∀ b ∈ post, ¬key b < k := fun b hb => Std.not_lt.mpr (le_of_lt (hpost b hb))
  have hbelow : below key k (pre ++ (l ++ post)) = pre ++ below key k l := by
    rw [below, List.takeWhile_append_of_pos (fun b hb => by simpa using hpre b hb)]
    congr 1
    induction l with
    | nil =>
      cases post with
      | nil => rfl
      | cons b post =>
        rw [List.nil_append, List.takeWhile_cons_of_neg (by simpa using hnot b (by simp))]
        rfl
    | cons c l ih =>
      by_cases hc : key c < k
      · rw [List.cons_append, List.takeWhile_cons_of_pos (by simpa using hc), ih, below, below,
          List.takeWhile_cons_of_pos (by simpa using hc)]
      · rw [List.cons_append, List.takeWhile_cons_of_neg (by simpa using hc), below,
          List.takeWhile_cons_of_neg (by simpa using hc)]
  have habove : above key k (pre ++ (l ++ post)) = above key k l ++ post := by
    have hwhole : below key k (pre ++ (l ++ post)) ++ above key k (pre ++ (l ++ post)) =
        pre ++ (below key k l ++ above key k l ++ post) := by
      rw [below_append_above, below_append_above]
    rw [hbelow, List.append_assoc, List.append_assoc] at hwhole
    exact List.append_cancel_left (List.append_cancel_left hwhole)
  have hfilter : post.filter (fun b => decide (key b ≠ k)) = post := by
    refine List.filter_eq_self.mpr fun b hb => ?_
    have hne : key b ≠ k := fun heq => Std.lt_irrefl (heq ▸ hpost b hb)
    simpa using hne
  rw [put, hbelow, habove, List.filter_append, hfilter, put]
  simp only [List.append_assoc]

theorem find_put {l : List α} (hl : Increasing key l) (ha : ∀ b ∈ a, key b = k) (j : K) :
    find key j (put key k a l) = if j = k then a else find key j l := by
  have hput := increasing_put hl ha
  have hext : ∀ b, find key j (put key k a l) = some b ↔
      (if j = k then a else find key j l) = some b := by
    intro b
    rw [find_eq_some hput, mem_put]
    split
    · next heq =>
      subst heq
      constructor
      · rintro ⟨⟨-, hne⟩ | hb, hkey⟩
        · exact absurd hkey hne
        · exact hb
      · intro hb
        exact ⟨.inr hb, ha b hb⟩
    · next hne =>
      rw [find_eq_some hl]
      constructor
      · rintro ⟨⟨hb, -⟩ | hb, hkey⟩
        · exact ⟨hb, hkey⟩
        · exact absurd (hkey.symm.trans (ha b hb)) hne
      · rintro ⟨hb, rfl⟩
        exact ⟨.inl ⟨hb, hne⟩, rfl⟩
  exact Option.ext hext

theorem length_put_of_none {l : List α} (h : find key k l = none) :
    (put key k a l).length = l.length + a.toList.length := by
  have hl := congrArg List.length (@below_append_above α K _ _ _ _ _ key k l)
  rw [List.length_append] at hl
  rw [put, filter_above_self h, List.length_append, List.length_append]
  omega

theorem length_put_of_some {l : List α} (hl : Increasing key l)
    (h : (find key k l).isSome = true) :
    (put key k a l).length + 1 = l.length + a.toList.length := by
  have hlen := congrArg List.length (@below_append_above α K _ _ _ _ _ key k l)
  rw [List.length_append] at hlen
  -- the cut meets the key: what is above starts with it
  cases habove : above key k l with
  | nil =>
    rw [← find_above, habove] at h
    cases h
  | cons b m =>
    have hb : key b = k := by
      by_contra hne
      have hsub : Increasing key (below key k l ++ above key k l) := by rwa [below_append_above]
      have hinc := (Increasing.append_iff.mp hsub).2.1
      have hlt : k < key b :=
        Std.lt_of_le_of_ne (le_of_mem_above hl (habove ▸ List.mem_cons_self)) (Ne.symm hne)
      rw [habove] at hinc
      have hnone : find key k (b :: m) = none := find_none_of_gt fun c hc => by
        rcases List.mem_cons.mp hc with rfl | hc
        · exact hlt
        · exact Std.lt_trans hlt ((List.pairwise_cons.mp hinc).1 c hc)
      rw [← find_above, habove, hnone] at h
      cases h
    rw [put, filter_above_eq hl habove hb, List.length_append, List.length_append]
    rw [habove, List.length_cons] at hlen
    omega

end Put

/-! ## choosing a child -/

section Route

variable [DecidableLE K]

/-- The last child whose bound a key has reached, or the first child; with the
children before and after it. -/
def route (k : K) (before : List (K × β)) (current : K × β) :
    List (K × β) → List (K × β) × (K × β) × List (K × β)
  | [] => (before, current, [])
  | next :: rest =>
    if next.1 ≤ k then route k (before ++ [current]) next rest
    else (before, current, next :: rest)

theorem route_spec {k : K} {before : List (K × β)} {current : K × β} {rest : List (K × β)}
    (hinc : Increasing Prod.fst (current :: rest)) (hfirst : before = [] ∨ current.1 ≤ k) :
    ∃ pre c post, route k before current rest = (pre, c, post) ∧
      before ++ current :: rest = pre ++ c :: post ∧ before <+: pre ∧
      (pre = [] ∨ c.1 ≤ k) ∧ ∀ d ∈ post, k < d.1 := by
  induction rest generalizing before current with
  | nil => exact ⟨before, current, [], rfl, rfl, List.prefix_refl _, hfirst, by simp⟩
  | cons next rest ih =>
    obtain ⟨hcurrent, hrest⟩ := List.pairwise_cons.mp hinc
    unfold route
    split
    · next hle =>
      obtain ⟨pre, c, post, hroute, hsplit, hpre, hc, hpost⟩ :=
        @ih (before ++ [current]) next hrest (.inr hle)
      refine ⟨pre, c, post, hroute, by simpa using hsplit, ?_, hc, hpost⟩
      exact (List.prefix_append before [current]).trans hpre
    · next hgt =>
      refine ⟨before, current, next :: rest, rfl, rfl, List.prefix_refl _, hfirst, ?_⟩
      intro d hd
      have hnext := not_le.mp hgt
      rcases List.mem_cons.mp hd with rfl | hd
      · exact hnext
      · exact lt_trans hnext ((List.pairwise_cons.mp hrest).1 d hd)

/-- Choosing looks at the bounds only. -/
theorem route_map {γ : Type} (f : β → γ) (k : K) (before : List (K × β)) (current : K × β)
    (rest : List (K × β)) :
    route k (before.map (Prod.map id f)) (Prod.map id f current) (rest.map (Prod.map id f)) =
      ((route k before current rest).1.map (Prod.map id f),
        Prod.map id f (route k before current rest).2.1,
        (route k before current rest).2.2.map (Prod.map id f)) := by
  induction rest generalizing before current with
  | nil => rfl
  | cons next rest ih =>
    have hstep := ih (before ++ [current]) next
    rw [List.map_append, List.map_cons, List.map_nil] at hstep
    unfold route
    rw [List.map_cons]
    simp only [Prod.map_fst, id_eq]
    split
    · exact hstep
    · rfl

end Route

end Ordered
