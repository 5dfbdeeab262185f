import Mathlib

/-!
# QuantaDb.Lib.Redo

Redo logging of one cell, over any value type and any kind of change.

A *history* `F` is the list of every change made to the cell, in log order; a
*log* `L` is the part of it that is still on disk; an *image* is a stored
value stamped with the number of the last change folded into it.  Recovery
redoes the log onto the image and skips what the stamp says is already there:

```
redo img L = L.foldl redo1 img
```

`Rebuilds F L img` is the condition under which that gives back the whole
history.  It holds in two ways: the image is the state of a prefix of `F` and
the log still has the rest (`folded`), or the log has a change that does not
look at the old value, and everything after it (`replaced`).  The second way
asks nothing of the image but a low stamp.

* `Rebuilds.redo_eq` — redoing the log gives the state of the history;
* `Rebuilds.redo_prefix` — an image left by an interrupted redo still rebuilds;
* `Rebuilds.append` — so does any image after more changes are logged.
-/

namespace Redo

/-- A stored value with the number of the last change folded into it. -/
structure Stamped (ν : Type) where
  lsn : Nat
  value : ν
deriving DecidableEq, Repr

/-- The image already reflects the change numbered `lsn`. -/
def covers (img : Option (Stamped ν)) (lsn : Nat) : Bool := img.any fun s => lsn ≤ s.lsn

@[simp] theorem covers_none (lsn : Nat) : covers (none : Option (Stamped ν)) lsn = false := rfl

@[simp] theorem covers_some (s : Stamped ν) (lsn : Nat) :
    covers (some s) lsn = decide (lsn ≤ s.lsn) := rfl

section

variable {α ν : Type} (lsn : α → Nat) (act : α → Option ν → ν)

/-- Redo one change, unless the image's stamp says it is already applied. -/
def redo1 (img : Option (Stamped ν)) (c : α) : Option (Stamped ν) :=
  if covers img (lsn c) then img else some ⟨lsn c, act c (img.map Stamped.value)⟩

/-- Redo a run of changes in order. -/
def redo (img : Option (Stamped ν)) (cs : List α) : Option (Stamped ν) :=
  cs.foldl (redo1 lsn act) img

/-- The image of a whole history: every change redone from nothing. -/
def latest (cs : List α) : Option (Stamped ν) := redo lsn act none cs

/-- The value after applying every change to `v`, stamps left aside. -/
def replay (v : Option ν) (cs : List α) : Option ν := cs.foldl (fun v c => some (act c v)) v

/-- A change that gives the same value whatever was there before. -/
def Absolute (c : α) : Prop := ∀ v v', act c v = act c v'

/-- Changes are numbered in strictly increasing order. -/
def Ordered (cs : List α) : Prop := cs.Pairwise fun a b => lsn a < lsn b

/-- The log `L`, redone onto `img`, gives the state of the history `F`. -/
inductive Rebuilds (F L : List α) (img : Option (Stamped ν)) : Prop where
  | folded (G K T : List α) (hF : F = G ++ T) (hL : L = K ++ T) (hK : K.Sublist G)
      (himg : img = latest lsn act G) : Rebuilds F L img
  | replaced (G K T : List α) (c : α) (hF : F = G ++ c :: T) (hL : L = K ++ c :: T)
      (hK : K.Sublist G) (habs : Absolute act c) (hlow : covers img (lsn c) = false) :
      Rebuilds F L img

variable {lsn act}

/-! ## redo -/

@[simp] theorem redo_nil (img : Option (Stamped ν)) : redo lsn act img [] = img := rfl

@[simp] theorem redo_cons (img : Option (Stamped ν)) (c : α) (cs : List α) :
    redo lsn act img (c :: cs) = redo lsn act (redo1 lsn act img c) cs := rfl

theorem redo_append (img : Option (Stamped ν)) (cs ds : List α) :
    redo lsn act img (cs ++ ds) = redo lsn act (redo lsn act img cs) ds :=
  List.foldl_append

theorem latest_append (cs ds : List α) :
    latest lsn act (cs ++ ds) = redo lsn act (latest lsn act cs) ds :=
  redo_append none cs ds

@[simp] theorem latest_nil : latest lsn act ([] : List α) = none := rfl

/-- A change the image covers leaves it alone. -/
theorem redo1_of_covers {img : Option (Stamped ν)} {c : α} (h : covers img (lsn c) = true) :
    redo1 lsn act img c = img := by
  simp [redo1, h]

/-- A change past the image's stamp is applied. -/
theorem redo1_of_not_covers {img : Option (Stamped ν)} {c : α}
    (h : covers img (lsn c) = false) :
    redo1 lsn act img c = some ⟨lsn c, act c (img.map Stamped.value)⟩ := by
  simp [redo1, h]

/-- A run of covered changes leaves the image alone. -/
theorem redo_of_covers {img : Option (Stamped ν)} {cs : List α}
    (h : ∀ c ∈ cs, covers img (lsn c) = true) : redo lsn act img cs = img := by
  induction cs with
  | nil => rfl
  | cons c cs ih =>
    rw [redo_cons, redo1_of_covers (h c List.mem_cons_self)]
    exact ih fun d hd => h d (List.mem_cons_of_mem c hd)

/-- Redo raises the stamp to the change's number or leaves it as it was. -/
theorem covers_redo1 (img : Option (Stamped ν)) (c : α) (l : Nat) :
    covers (redo1 lsn act img c) l = (covers img l || decide (l ≤ lsn c)) := by
  by_cases h : covers img (lsn c) = true
  · rw [redo1_of_covers h]
    cases img with
    | none => simp at h
    | some s =>
      simp only [covers_some, decide_eq_true_eq] at h ⊢
      by_cases hl : l ≤ s.lsn
      · simp [hl]
      · have hlc : ¬ l ≤ lsn c := by omega
        simp [hl, hlc]
  · have hf : covers img (lsn c) = false := by simpa using h
    rw [redo1_of_not_covers hf]
    cases img with
    | none => simp
    | some s =>
      simp only [covers_some, decide_eq_false_iff_not] at hf ⊢
      by_cases hl : l ≤ s.lsn
      · have hlc : l ≤ lsn c := by omega
        simp [hl, hlc]
      · simp [hl]

/-- What a run of changes covers: what was covered, and everything up to a
change of the run. -/
theorem covers_redo (img : Option (Stamped ν)) (cs : List α) (l : Nat) :
    covers (redo lsn act img cs) l = (covers img l || cs.any fun c => decide (l ≤ lsn c)) := by
  induction cs generalizing img with
  | nil => simp
  | cons c cs ih => rw [redo_cons, ih, covers_redo1, List.any_cons, Bool.or_assoc]

/-- The image of a history covers each of its changes. -/
theorem covers_latest_of_mem {cs : List α} {c : α} (h : c ∈ cs) :
    covers (latest lsn act cs) (lsn c) = true := by
  rw [latest, covers_redo]
  simp only [covers_none, Bool.false_or, List.any_eq_true, decide_eq_true_eq]
  exact ⟨c, h, Nat.le_refl _⟩

/-- The image of a history covers nothing past its changes. -/
theorem not_covers_latest {cs : List α} {l : Nat} (h : ∀ c ∈ cs, lsn c < l) :
    covers (latest lsn act cs) l = false := by
  rw [latest, covers_redo]
  simp only [covers_none, Bool.false_or, List.any_eq_false, decide_eq_true_eq, Nat.not_le]
  exact h

/-! ## ordered histories -/

theorem Ordered.sublist {cs ds : List α} (h : Ordered lsn ds) (hs : cs.Sublist ds) :
    Ordered lsn cs :=
  List.Pairwise.sublist hs h

/-- In an ordered history, what comes before a change has a smaller number. -/
theorem Ordered.lt_of_append_cons {G T : List α} {c : α} (h : Ordered lsn (G ++ c :: T)) :
    ∀ d ∈ G, lsn d < lsn c := fun d hd =>
  (List.pairwise_append.mp h).2.2 d hd c List.mem_cons_self

/-- Redoing an ordered history from nothing applies every change. -/
theorem latest_concat {cs : List α} {c : α} (h : Ordered lsn (cs ++ [c])) :
    latest lsn act (cs ++ [c]) =
      some ⟨lsn c, act c ((latest lsn act cs).map Stamped.value)⟩ := by
  rw [latest_append, redo_cons, redo_nil]
  exact redo1_of_not_covers (not_covers_latest h.lt_of_append_cons)

/-- The value of the image of an ordered history is the replayed one. -/
theorem latest_value {cs : List α} (h : Ordered lsn cs) :
    (latest lsn act cs).map Stamped.value = replay act none cs := by
  induction cs using List.reverseRecOn with
  | nil => rfl
  | append_singleton cs c ih =>
    have hcs : Ordered lsn cs := h.sublist (List.sublist_append_left cs [c])
    rw [latest_concat h, Option.map_some, ih hcs]
    simp [replay, List.foldl_append]

/-- Redoing leaves the image it started from, or stamps it by one of the changes. -/
theorem redo_lsn {img : Option (Stamped ν)} {cs : List α} {s : Stamped ν}
    (h : redo lsn act img cs = some s) : img = some s ∨ ∃ c ∈ cs, lsn c = s.lsn := by
  induction cs generalizing img with
  | nil => exact Or.inl h
  | cons c cs ih =>
    rw [redo_cons] at h
    rcases ih h with himg | ⟨d, hd, hds⟩
    · by_cases hc : covers img (lsn c) = true
      · rw [redo1_of_covers hc] at himg
        exact Or.inl himg
      · rw [redo1_of_not_covers (by simpa using hc)] at himg
        cases himg
        exact Or.inr ⟨c, List.mem_cons_self, rfl⟩
    · exact Or.inr ⟨d, List.mem_cons_of_mem c hd, hds⟩

/-- The image of a history is stamped by one of its changes. -/
theorem exists_mem_lsn_eq {cs : List α} {s : Stamped ν} (h : latest lsn act cs = some s) :
    ∃ c ∈ cs, lsn c = s.lsn := by
  rcases redo_lsn h with himg | hc
  · cases himg
  · exact hc

/-! ## rebuilding -/

/-- An up-to-date image needs no log. -/
theorem Rebuilds.of_latest {F L : List α} (h : L.Sublist F) :
    Rebuilds lsn act F L (latest lsn act F) :=
  .folded F L [] (by simp) (by simp) h rfl

/-- A complete log needs no image. -/
theorem Rebuilds.of_log (F : List α) : Rebuilds lsn act F F none :=
  .folded [] [] F rfl rfl (List.Sublist.refl []) rfl

/-- Logging more changes keeps every image good. -/
theorem Rebuilds.append {F L : List α} {img : Option (Stamped ν)}
    (h : Rebuilds lsn act F L img) (X : List α) : Rebuilds lsn act (F ++ X) (L ++ X) img := by
  cases h with
  | folded G K T hF hL hK himg =>
    exact .folded G K (T ++ X) (by rw [hF, List.append_assoc]) (by rw [hL, List.append_assoc])
      hK himg
  | replaced G K T c hF hL hK habs hlow =>
    exact .replaced G K (T ++ X) c (by rw [hF, List.append_assoc, List.cons_append])
      (by rw [hL, List.append_assoc, List.cons_append]) hK habs hlow

/-- Logging an absolute change makes any image with a lower stamp good. -/
theorem Rebuilds.of_absolute {F L X : List α} {img : Option (Stamped ν)} {c : α}
    (hs : L.Sublist F) (hc : c ∈ X) (habs : Absolute act c) (hlow : covers img (lsn c) = false) :
    Rebuilds lsn act (F ++ X) (L ++ X) img := by
  obtain ⟨X₁, X₂, rfl⟩ := List.append_of_mem hc
  exact .replaced (F ++ X₁) (L ++ X₁) X₂ c (by simp) (by simp)
    (hs.append (List.Sublist.refl X₁)) habs hlow

/-- An image that can be rebuilt from is not newer than the history. -/
theorem Rebuilds.not_covers {F L : List α} {img : Option (Stamped ν)} {l : Nat}
    (h : Rebuilds lsn act F L img) (hl : ∀ c ∈ F, lsn c < l) : covers img l = false := by
  cases h with
  | folded G K T hF hL hK himg =>
    subst hF himg
    exact not_covers_latest fun c hc => hl c (List.mem_append_left _ hc)
  | replaced G K T c hF hL hK habs hlow =>
    cases img with
    | none => rfl
    | some s =>
      have := hl c (by rw [hF]; simp)
      simp only [covers_some, decide_eq_false_iff_not] at hlow ⊢
      omega

/-- The changes a prefix image has left behind are covered by it. -/
theorem redo_latest_of_sublist {G K : List α} (h : K.Sublist G) :
    redo lsn act (latest lsn act G) K = latest lsn act G :=
  redo_of_covers fun _ hc => covers_latest_of_mem (h.subset hc)

/-- An absolute change forgets the image it is redone onto. -/
theorem redo1_of_absolute {img img' : Option (Stamped ν)} {c : α} (habs : Absolute act c)
    (h : covers img (lsn c) = false) (h' : covers img' (lsn c) = false) :
    redo1 lsn act img c = redo1 lsn act img' c := by
  rw [redo1_of_not_covers h, redo1_of_not_covers h', habs]

/-- Redoing changes below `l` onto an image below `l` stays below `l`. -/
theorem not_covers_redo {img : Option (Stamped ν)} {cs : List α} {l : Nat}
    (himg : covers img l = false) (h : ∀ c ∈ cs, lsn c < l) :
    covers (redo lsn act img cs) l = false := by
  rw [covers_redo, himg, Bool.false_or, List.any_eq_false]
  intro c hc
  have := h c hc
  simp only [decide_eq_true_eq, Nat.not_le]
  omega

/-- Redoing past an absolute change gives the history's state there. -/
theorem redo_replaced {G K T : List α} {c : α} {img : Option (Stamped ν)}
    (hord : Ordered lsn (G ++ c :: T)) (hK : K.Sublist G) (habs : Absolute act c)
    (hlow : covers img (lsn c) = false) :
    redo lsn act img (K ++ c :: T) = latest lsn act (G ++ c :: T) := by
  have hbelow : ∀ d ∈ G, lsn d < lsn c := hord.lt_of_append_cons
  have hKlow : covers (redo lsn act img K) (lsn c) = false :=
    not_covers_redo hlow fun d hd => hbelow d (hK.subset hd)
  have hGlow : covers (latest lsn act G) (lsn c) = false := not_covers_latest hbelow
  rw [redo_append, redo_cons, redo1_of_absolute habs hKlow hGlow, latest_append, redo_cons]

/-- **Recovery is complete**: redoing the log onto the image gives the state
of the whole history. -/
theorem Rebuilds.redo_eq {F L : List α} {img : Option (Stamped ν)} (hord : Ordered lsn F)
    (h : Rebuilds lsn act F L img) : redo lsn act img L = latest lsn act F := by
  cases h with
  | folded G K T hF hL hK himg =>
    subst hF hL himg
    rw [redo_append, redo_latest_of_sublist hK, latest_append]
  | replaced G K T c hF hL hK habs hlow =>
    subst hF hL
    exact redo_replaced hord hK habs hlow

/-- **Recovery may be interrupted**: the image left by redoing part of the log
still rebuilds from the same log. -/
theorem Rebuilds.redo_prefix {F L L₁ L₂ : List α} {img : Option (Stamped ν)}
    (hord : Ordered lsn F) (h : Rebuilds lsn act F L img) (hL : L = L₁ ++ L₂) :
    Rebuilds lsn act F L (redo lsn act img L₁) := by
  cases h with
  | folded G K T hF hLK hK himg =>
    subst himg
    rcases List.append_eq_append_iff.mp (hLK.symm.trans hL) with
      ⟨T₁, hL₁, hT⟩ | ⟨K₂, hK₂, hL₂⟩
    · -- the redo has used up the covered changes and `T₁` of the rest
      subst hL₁ hT
      refine .folded (G ++ T₁) (K ++ T₁) L₂ ?_ ?_ (hK.append (List.Sublist.refl T₁)) ?_
      · rw [hF, List.append_assoc]
      · rw [hLK, List.append_assoc]
      · rw [redo_append, redo_latest_of_sublist hK, latest_append]
    · subst hK₂
      have hsub : L₁.Sublist G := (List.sublist_append_left L₁ K₂).trans hK
      rw [redo_latest_of_sublist hsub]
      exact .folded G (L₁ ++ K₂) T hF hLK hK rfl
  | replaced G K T c hF hLK hK habs hlow =>
    have hbelow : ∀ d ∈ K, lsn d < lsn c := fun d hd =>
      Ordered.lt_of_append_cons (hF ▸ hord) d (hK.subset hd)
    rcases List.append_eq_append_iff.mp (hLK.symm.trans hL) with
      ⟨T₁, hL₁, hT⟩ | ⟨K₂, hK₂, hL₂⟩
    · cases T₁ with
      | nil =>
        rw [List.append_nil] at hL₁
        subst hL₁
        exact .replaced G L₁ T c hF hLK hK habs (not_covers_redo hlow hbelow)
      | cons d T₁ =>
        -- the absolute change is behind the redo: the image is a folded one
        rw [List.cons_append, List.cons.injEq] at hT
        obtain ⟨rfl, hT⟩ := hT
        subst hL₁ hT
        have hord' : Ordered lsn (G ++ c :: T₁) := by
          refine hord.sublist ?_
          rw [hF, ← List.cons_append, ← List.append_assoc]
          exact List.sublist_append_left _ _
        refine .folded (G ++ c :: T₁) (K ++ c :: T₁) L₂ ?_ ?_
          (hK.append (List.Sublist.refl (c :: T₁))) (redo_replaced hord' hK habs hlow)
        · rw [hF, List.append_assoc, List.cons_append]
        · rw [hLK, List.append_assoc, List.cons_append]
    · subst hK₂
      exact .replaced G (L₁ ++ K₂) T c hF hLK hK habs
        (not_covers_redo hlow fun d hd => hbelow d (List.mem_append_left _ hd))

end

end Redo
