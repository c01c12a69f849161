import Mathlib.Data.List.Basic

/-!
# Texts that tell where they end

A way of writing values is delimited before some characters if the written form of a value, followed
by one of them or by nothing, can be read in one way only. Numbers are delimited before anything but
a digit. Lists are if their items are, provided that a list says by its length or by a closing
character how many items there are.
-/

namespace TreeWalk

/-- The text is at its end or goes on with a character that is not of the class. -/
def Breaks (c : Char → Bool) (rest : List Char) : Prop := ∀ x ∈ rest.head?, c x = false

@[simp] theorem breaks_nil (c : Char → Bool) : Breaks c [] := by simp [Breaks]

@[simp] theorem breaks_cons {c : Char → Bool} {x : Char} {rest : List Char} :
    Breaks c (x :: rest) ↔ c x = false := by simp [Breaks]

theorem breaks_never (rest : List Char) : Breaks (fun _ => false) rest := fun _ _ => rfl

variable {α : Type}

/-- Where a text goes on with no character of the class, the written form of a value of `P` tells
the value and where it ends. -/
def Delimited (c : Char → Bool) (P : α → Prop) (text : α → List Char) : Prop :=
  ∀ ⦃a b : α⦄ ⦃r s : List Char⦄, P a → P b → Breaks c r → Breaks c s →
    text a ++ r = text b ++ s → a = b ∧ r = s

variable {c : Char → Bool} {P : α → Prop} {text : α → List Char}

theorem Delimited.eq_of_text_eq (h : Delimited c P text) {a b : α} (ha : P a) (hb : P b)
    (htext : text a = text b) : a = b :=
  (h ha hb (breaks_nil c) (breaks_nil c) (by rw [htext])).1

theorem takeWhile_append_of_breaks {xs r : List Char} (hxs : ∀ x ∈ xs, c x = true)
    (hr : Breaks c r) : (xs ++ r).takeWhile c = xs := by
  rw [List.takeWhile_append_of_pos hxs]
  cases r with
  | nil => simp
  | cons x r => simp [breaks_cons.mp hr]

/-- What is written in characters of a class ends with them. -/
theorem delimited_of_chars (hchars : ∀ a, P a → ∀ x ∈ text a, c x = true)
    (hinj : ∀ a b, P a → P b → text a = text b → a = b) : Delimited c P text := by
  intro a b r s ha hb hr hs h
  have htake := congrArg (List.takeWhile c) h
  rw [takeWhile_append_of_breaks (hchars a ha) hr,
    takeWhile_append_of_breaks (hchars b hb) hs] at htake
  exact ⟨hinj a b ha hb htake, List.append_cancel_left (htake ▸ h)⟩

theorem append_ne_cons_of_chars {xs : List Char} (hne : xs ≠ []) (hxs : ∀ x ∈ xs, c x = true)
    {x : Char} (hx : c x = false) (r s : List Char) : xs ++ r ≠ x :: s := by
  intro h
  cases xs with
  | nil => exact hne rfl
  | cons y ys =>
    obtain rfl := (List.cons.inj h).1
    exact Bool.false_ne_true (hx.symm.trans (hxs y List.mem_cons_self))

theorem isDigit_of_mem_digits (n : Nat) : ∀ x ∈ Nat.toDigits 10 n, Char.isDigit x = true :=
  fun _ hx => Nat.isDigit_of_mem_toDigits (by decide) (by decide) hx

theorem delimited_digits : Delimited Char.isDigit (fun _ => True) (Nat.toDigits 10) := by
  refine delimited_of_chars (fun n _ => isDigit_of_mem_digits n) fun m n _ _ h => ?_
  rw [← Nat.ofDigitChars_ten_toDigits (n := m), h, Nat.ofDigitChars_ten_toDigits]

theorem digits_append_ne_cons {n : Nat} {x : Char} (hx : x.isDigit = false) (r s : List Char) :
    Nat.toDigits 10 n ++ r ≠ x :: s :=
  append_ne_cons_of_chars Nat.toDigits_ne_nil (isDigit_of_mem_digits n) hx r s

/-! ## Lists -/

section Lists

variable {mark close : Char} {gap : List Char}

def marked (mark : Char) (gap : List Char) (text : α → List Char) (xs : List α) : List Char :=
  xs.flatMap fun x => mark :: (gap ++ text x)

theorem marked_cons (x : α) (xs : List α) (r : List Char) :
    marked mark gap text (x :: xs) ++ r =
      mark :: (gap ++ (text x ++ (marked mark gap text xs ++ r))) := by
  simp [marked]

theorem breaks_marked (hmark : c mark = false) (xs : List α) {r : List Char} (hr : Breaks c r) :
    Breaks c (marked mark gap text xs ++ r) := by
  cases xs with
  | nil => simpa [marked] using hr
  | cons x xs => rw [marked_cons, breaks_cons, hmark]

theorem Delimited.items (h : Delimited c P text) (hmark : c mark = false) (n : Nat) :
    Delimited c (fun xs => xs.length = n ∧ ∀ x ∈ xs, P x) (marked mark gap text) := by
  intro xs ys r s hxs hys hr hs heq
  induction xs generalizing ys n with
  | nil =>
    obtain rfl : ys = [] := List.length_eq_zero_iff.mp (hys.1.trans hxs.1.symm)
    exact ⟨rfl, heq⟩
  | cons x xs ih =>
    obtain ⟨hlength, hx⟩ := hxs
    cases ys with
    | nil => cases hlength.trans hys.1.symm
    | cons y ys =>
      obtain ⟨hlength', hy⟩ := hys
      rw [marked_cons, marked_cons] at heq
      obtain ⟨rfl, htail⟩ := h (hx x List.mem_cons_self) (hy y List.mem_cons_self)
        (breaks_marked hmark xs hr) (breaks_marked hmark ys hs)
        (List.append_cancel_left (List.cons.inj heq).2)
      obtain ⟨rfl, hrest⟩ := ih xs.length ⟨rfl, fun z hz => hx z (List.mem_cons_of_mem x hz)⟩
        ⟨Nat.succ.inj (hlength'.trans hlength.symm), fun z hz => hy z (List.mem_cons_of_mem x hz)⟩
        htail
      exact ⟨rfl, hrest⟩

theorem Delimited.items_close (h : Delimited c P text) (hmark : c mark = false)
    (hclose : c close = false) (hne : mark ≠ close) :
    Delimited (fun _ => false) (fun xs : List α => ∀ x ∈ xs, P x)
      fun xs : List α => marked mark gap text xs ++ [close] := by
  intro xs ys r s hxs hys hr hs heq
  simp only [List.append_assoc, List.singleton_append] at heq
  have hbreaks (t : List Char) : Breaks c (close :: t) := breaks_cons.mpr hclose
  induction xs generalizing ys with
  | nil =>
    cases ys with
    | nil => exact ⟨rfl, (List.cons.inj heq).2⟩
    | cons y ys =>
      rw [marked_cons] at heq
      exact absurd (List.cons.inj heq).1.symm hne
  | cons x xs ih =>
    rw [marked_cons] at heq
    cases ys with
    | nil => exact absurd (List.cons.inj heq).1 hne
    | cons y ys =>
      rw [marked_cons] at heq
      obtain ⟨rfl, htail⟩ := h (hxs x List.mem_cons_self) (hys y List.mem_cons_self)
        (breaks_marked hmark xs (hbreaks r)) (breaks_marked hmark ys (hbreaks s))
        (List.append_cancel_left (List.cons.inj heq).2)
      obtain ⟨rfl, hrest⟩ := ih (fun z hz => hxs z (List.mem_cons_of_mem x hz))
        (fun z hz => hys z (List.mem_cons_of_mem x hz)) htail
      exact ⟨rfl, hrest⟩

def listed (mark : Char) (gap : List Char) (close : Char) (text : α → List Char)
    (xs : List α) : List Char :=
  (mark :: gap).intercalate (xs.map text) ++ [close]

theorem listed_nil (r : List Char) : listed mark gap close text [] ++ r = close :: r := by
  simp [listed]

theorem listed_cons (x : α) (xs : List α) (r : List Char) :
    listed mark gap close text (x :: xs) ++ r =
      text x ++ (marked mark gap text xs ++ [close] ++ r) := by
  have hitems : (mark :: gap).intercalate ((x :: xs).map text) =
      text x ++ marked mark gap text xs := by
    induction xs generalizing x with
    | nil => simp [marked]
    | cons y ys ih =>
      rw [List.map_cons, List.map_cons, List.intercalate_cons_cons, ← List.map_cons, ih]
      simp [marked]
  simp only [listed, hitems, List.append_assoc]

/-- Items with marks between them, up to a closing character that begins no item. -/
theorem Delimited.list (h : Delimited c P text) (hmark : c mark = false)
    (hclose : c close = false) (hne : mark ≠ close)
    (hstart : ∀ a, P a → ∀ r s, text a ++ r ≠ close :: s) :
    Delimited (fun _ => false) (fun xs => ∀ x ∈ xs, P x) (listed mark gap close text) := by
  intro xs ys r s hxs hys hr hs heq
  have hbreaks (zs : List α) (t : List Char) :
      Breaks c (marked mark gap text zs ++ [close] ++ t) := by
    rw [List.append_assoc]
    exact breaks_marked hmark zs (breaks_cons.mpr hclose)
  cases xs with
  | nil =>
    rw [listed_nil] at heq
    cases ys with
    | nil => exact ⟨rfl, (List.cons.inj (heq.trans (listed_nil s))).2⟩
    | cons y ys =>
      rw [listed_cons] at heq
      exact absurd heq.symm (hstart y (hys y List.mem_cons_self) _ _)
  | cons x xs =>
    rw [listed_cons] at heq
    cases ys with
    | nil =>
      rw [listed_nil] at heq
      exact absurd heq (hstart x (hxs x List.mem_cons_self) _ _)
    | cons y ys =>
      rw [listed_cons] at heq
      obtain ⟨rfl, htail⟩ := h (hxs x List.mem_cons_self) (hys y List.mem_cons_self)
        (hbreaks xs r) (hbreaks ys s) heq
      obtain ⟨rfl, hrest⟩ := h.items_close hmark hclose hne
        (fun z hz => hxs z (List.mem_cons_of_mem x hz))
        (fun z hz => hys z (List.mem_cons_of_mem x hz)) hr hs htail
      exact ⟨rfl, hrest⟩

end Lists

end TreeWalk
