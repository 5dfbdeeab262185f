import Mathlib

/-!
# QuantaDb.Lib.Parsing

Rules for parsers: functions of the tokens still to be read that return a value and
what is left, or fail.

`Reads I E C p S` says what a parser does when it is called on input that satisfies
`I` and `C`: a value that it returns, the tokens that it consumed and the tokens that are
left satisfy `S`, what is left satisfies `I` again, and an error satisfies `E`.  Sequences
are proved from left to right, with what was consumed before in front of what is consumed
next: by `Reads.bind`, or by `Reads.seq` where what is left does not matter.
-/

namespace Parsing

variable {τ ε α β γ : Type}

/-- A parser of tokens `τ`. -/
abbrev Parser (τ ε : Type) := StateT (List τ) (Except ε)

/-- What a parser does on one input. -/
def ReadsAt (I : List τ → Prop) (E : ε → Prop) (rest : List τ) (S : α → List τ → List τ → Prop) :
    Except ε (α × List τ) → Prop
  | .ok result => I result.2 ∧ ∃ ts, rest = ts ++ result.2 ∧ S result.1 ts result.2
  | .error e => E e

/-- What a parser does on every input that it is made for. -/
def Reads (I : List τ → Prop) (E : ε → Prop) (C : List τ → Prop) (p : Parser τ ε α)
    (S : α → List τ → List τ → Prop) : Prop :=
  ∀ rest, I rest → C rest → ReadsAt I E rest S (p rest)

variable {I : List τ → Prop} {E : ε → Prop} {C : List τ → Prop} {S : α → List τ → List τ → Prop}

namespace Reads

theorem pure {a : α} (h : ∀ rest, C rest → S a [] rest) :
    Reads I E C (pure a : Parser τ ε α) S :=
  fun rest hI hC => ⟨hI, [], rfl, h rest hC⟩

theorem mono {p : Parser τ ε α} {S' : α → List τ → List τ → Prop} (h : Reads I E C p S)
    (hS : ∀ a ts rest, S a ts rest → S' a ts rest) : Reads I E C p S' := by
  intro rest hI hC
  have hat := h rest hI hC
  cases hp : p rest with
  | error e =>
    rw [hp] at hat
    exact hat
  | ok result =>
    rw [hp] at hat
    obtain ⟨hI', ts, hts, hS'⟩ := hat
    exact ⟨hI', ts, hts, hS _ _ _ hS'⟩

/-- A parser that needs less. -/
theorem weaken {p : Parser τ ε α} {C' : List τ → Prop} (h : Reads I E C p S)
    (hC : ∀ rest, C' rest → C rest) : Reads I E C' p S :=
  fun rest hI hC' => h rest hI (hC rest hC')

/-- One parser after another. -/
theorem bind {p : Parser τ ε α} {f : α → Parser τ ε β} {Q : α → List τ → List τ → Prop}
    {S : β → List τ → List τ → Prop} (hp : Reads I E C p Q)
    (hf : ∀ a u, Reads I E (fun rest => Q a u rest ∧ C (u ++ rest)) (f a)
      fun b v => S b (u ++ v)) :
    Reads I E C (p >>= f) S := by
  intro rest hI hC
  have hat := hp rest hI hC
  change ReadsAt I E rest S (p rest >>= fun result => f result.1 result.2)
  cases hrun : p rest with
  | error e =>
    rw [hrun] at hat
    exact hat
  | ok result =>
    rw [hrun] at hat
    obtain ⟨hI', u, hu, hQ⟩ := hat
    have hnext := hf _ u result.2 hI' ⟨hQ, hu ▸ hC⟩
    change ReadsAt I E rest S (f result.1 result.2)
    cases hrun' : f result.1 result.2 with
    | error e =>
      rw [hrun'] at hnext
      exact hnext
    | ok result' =>
      rw [hrun'] at hnext
      obtain ⟨hI'', v, hv, hS⟩ := hnext
      exact ⟨hI'', u ++ v, by rw [hu, hv, List.append_assoc], hS⟩

/-- A fact that does not depend on what is to be read. -/
theorem assume {P : Prop} {p : Parser τ ε α} (hP : ∀ rest, C rest → P) (h : P → Reads I E C p S) :
    Reads I E C p S :=
  fun rest hI hC => h (hP rest hC) rest hI hC

/-- One parser after another, where what is left does not matter. -/
theorem seq {p : Parser τ ε α} {f : α → Parser τ ε β} {Q : α → List τ → Prop}
    {S : β → List τ → List τ → Prop} (hp : Reads I E C p fun a u _ => Q a u)
    (hf : ∀ a u, Q a u → Reads I E (fun _ => True) (f a) fun b v => S b (u ++ v)) :
    Reads I E C (p >>= f) S :=
  hp.bind fun a u => .assume (fun _ h => h.1) fun hQ => (hf a u hQ).weaken fun _ _ => trivial

/-- Looking at the input before going on. -/
theorem peek {g : List τ → γ} {f : γ → Parser τ ε β} {S : β → List τ → List τ → Prop}
    (hf : ∀ c, Reads I E (fun rest => C rest ∧ g rest = c) (f c) S) :
    Reads I E C ((fun rest => .ok (g rest, rest) : Parser τ ε γ) >>= f) S :=
  fun rest hI hC => hf (g rest) rest hI ⟨hC, rfl⟩

/-- A parser that is chosen by the length of the input. -/
theorem ofLength {p : Nat → Parser τ ε α}
    (h : ∀ n, Reads I E (fun rest => C rest ∧ rest.length ≤ n) (p n) S) :
    Reads I E C (fun rest => p rest.length rest) S :=
  fun rest hI hC => h rest.length rest hI ⟨hC, Nat.le_refl _⟩

theorem ite {c : Prop} [Decidable c] {p q : Parser τ ε α} (hp : c → Reads I E C p S)
    (hq : ¬c → Reads I E C q S) : Reads I E C (if c then p else q) S := by
  by_cases h : c
  · rw [if_pos h]
    exact hp h
  · rw [if_neg h]
    exact hq h

/-- Input of two kinds. -/
theorem either {p : Parser τ ε α} {C₁ C₂ : List τ → Prop} (hC : ∀ rest, C rest → C₁ rest ∨ C₂ rest)
    (h₁ : Reads I E C₁ p S) (h₂ : Reads I E C₂ p S) : Reads I E C p S :=
  fun rest hI h => (hC rest h).elim (h₁ rest hI) (h₂ rest hI)

/-- The result of a run that returns. -/
theorem ok {p : Parser τ ε α} (h : Reads I E C p S) {rest : List τ} (hI : I rest) (hC : C rest)
    {result : α × List τ} (hp : p rest = .ok result) :
    I result.2 ∧ ∃ ts, rest = ts ++ result.2 ∧ S result.1 ts result.2 := by
  have hat := h rest hI hC
  rwa [hp] at hat

/-- The error of a run that fails. -/
theorem error {p : Parser τ ε α} (h : Reads I E C p S) {rest : List τ} (hI : I rest) (hC : C rest)
    {e : ε} (hp : p rest = .error e) : E e := by
  have hat := h rest hI hC
  rwa [hp] at hat

end Reads

/-! ## languages -/

/-- One word after another. -/
def Seq : List (List τ → Prop) → List τ → Prop
  | [], ts => ts = []
  | first :: others, ts => ∃ u v, ts = u ++ v ∧ first u ∧ Seq others v

theorem Seq.nil : Seq [] ([] : List τ) := rfl

theorem Seq.cons {first : List τ → Prop} {others : List (List τ → Prop)} {u v : List τ}
    (hu : first u) (hv : Seq others v) : Seq (first :: others) (u ++ v) :=
  ⟨u, v, rfl, hu, hv⟩

/-- An item or nothing. -/
def Optional (item : α → List τ → Prop) : Option α → List τ → Prop
  | none, ts => ts = []
  | some a, ts => item a ts

/-- Some words if a flag is set, or else nothing. -/
def Flag (words : List (List τ → Prop)) (flag : Bool) (ts : List τ) : Prop :=
  if flag then Seq words ts else ts = []

/-- Items one after another. -/
inductive Many (item : α → List τ → Prop) : List α → List τ → Prop where
  | nil : Many item [] []
  | cons {a : α} {as : List α} {u v : List τ} :
      item a u → Many item as v → Many item (a :: as) (u ++ v)

/-- Items with a separator between each two. -/
inductive SepBy (separator : List τ → Prop) (item : α → List τ → Prop) : List α → List τ →
    Prop where
  | one {a : α} {u : List τ} : item a u → SepBy separator item [a] u
  | cons {a : α} {as : List α} {u v w : List τ} :
      item a u → separator v → SepBy separator item as w →
      SepBy separator item (a :: as) (u ++ (v ++ w))

/-- Items with separators between other words, or no items and nothing. -/
def Listed (before : List (List τ → Prop)) (separator : List τ → Prop) (item : α → List τ → Prop)
    (after : List (List τ → Prop)) : List α → List τ → Prop
  | [], ts => ts = []
  | a :: as, ts => Seq (before ++ SepBy separator item (a :: as) :: after) ts

theorem SepBy.map {separator : List τ → Prop} {item : α → List τ → Prop}
    {item' : β → List τ → Prop} {f : α → β} (h : ∀ a ts, item a ts → item' (f a) ts) {as : List α}
    {ts : List τ} (has : SepBy separator item as ts) : SepBy separator item' (as.map f) ts := by
  induction has with
  | one hitem => exact .one (h _ _ hitem)
  | cons hitem hsep _ ih => exact .cons (h _ _ hitem) hsep ih

theorem SepBy.ne_nil {separator : List τ → Prop} {item : α → List τ → Prop} {as : List α}
    {ts : List τ} (h : SepBy separator item as ts) : as ≠ [] := by
  cases h <;> simp

end Parsing
