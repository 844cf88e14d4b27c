import Mathlib.Data.List.TakeWhile
import StackScript.Json.Token
import StackScript.Text.Hex

namespace StackScript.Text

theorem mapM_eq_pure_map {α β : Type} {m : Type → Type} [Monad m] [LawfulMonad m]
    {f : α → m β} {g : α → β} {xs : List α} (h : ∀ x ∈ xs, f x = pure (g x)) :
    xs.mapM f = pure (xs.map g) := by
  induction xs with
  | nil => rfl
  | cons x xs ih =>
      rw [List.mapM_cons, h x (by simp), ih fun y hy => h y (by simp [hy]), pure_bind, pure_bind,
        List.map_cons]

section Cut

variable {α : Type} {p : α → Bool} {xs ys us vs : List α}

theorem takeWhile_cut (hx : ∀ x ∈ xs, p x) (hu : ∀ u ∈ us.head?, p u = false) :
    (xs ++ us).takeWhile p = xs := by
  rw [List.takeWhile_append_of_pos hx]
  cases us with
  | nil => rw [List.takeWhile_nil, List.append_nil]
  | cons u us => rw [List.takeWhile_cons_of_neg (by simp [hu u rfl]), List.append_nil]

theorem cut_unique (hx : ∀ x ∈ xs, p x) (hy : ∀ y ∈ ys, p y) (hu : ∀ u ∈ us.head?, p u = false)
    (hv : ∀ v ∈ vs.head?, p v = false) (h : xs ++ us = ys ++ vs) : xs = ys ∧ us = vs := by
  have hxs := takeWhile_cut hx hu
  rw [h, takeWhile_cut hy hv] at hxs
  subst hxs
  exact ⟨rfl, List.append_cancel_left h⟩

end Cut

def unlines (lines : List String) : String := String.join (lines.map (· ++ "\n"))

theorem unlines_inj {xs ys : List String} (hx : ∀ l ∈ xs, '\n' ∉ l.toList)
    (hy : ∀ l ∈ ys, '\n' ∉ l.toList) (h : unlines xs = unlines ys) : xs = ys := by
  have hne {l : List Char} (hl : '\n' ∉ l) : ∀ c ∈ l, (c != '\n') = true := by
    intro c hc
    rw [bne_iff_ne]
    rintro rfl
    exact hl hc
  have hcons (l : String) (ls : List String) :
      (unlines (l :: ls)).toList = l.toList ++ '\n' :: (unlines ls).toList := by
    simp [unlines, String.toList_join]
  induction xs generalizing ys with
  | nil =>
      cases ys with
      | nil => rfl
      | cons y ys =>
          have hy := hcons y ys
          rw [← h] at hy
          simp [unlines] at hy
  | cons x xs ih =>
      cases ys with
      | nil =>
          have hx := hcons x xs
          rw [h] at hx
          simp [unlines] at hx
      | cons y ys =>
          have hl := congrArg String.toList h
          rw [hcons, hcons] at hl
          obtain ⟨hxy, htail⟩ :=
            cut_unique (hne (hx x (by simp))) (hne (hy y (by simp))) (by simp) (by simp) hl
          rw [String.toList_inj.mp hxy, ih (fun l hl => hx l (by simp [hl]))
            (fun l hl => hy l (by simp [hl]))
            (String.toList_inj.mp (List.cons.inj htail).2)]

theorem exists_digit_of_mem {b n : Nat} (hb : 1 < b) {c : Char} (h : c ∈ b.toDigits n) :
    ∃ d, d < b ∧ c = d.digitChar := by
  induction n using Nat.strongRecOn with
  | ind n ih =>
      rw [Nat.toDigits_eq_if hb] at h
      split at h
      case isTrue hn => exact ⟨n, hn, List.mem_singleton.mp h⟩
      case isFalse hn =>
        obtain h | h := List.mem_append.mp h
        · exact ih (n / b) (Nat.div_lt_self (by omega) hb) h
        · exact ⟨n % b, Nat.mod_lt n (by omega), List.mem_singleton.mp h⟩

theorem foldl_toDigits {b : Nat} (hb : 1 < b) {value : Char → Nat}
    (hv : ∀ d < b, value d.digitChar = d) (n : Nat) :
    (b.toDigits n).foldl (fun v c => b * v + value c) 0 = n := by
  induction n using Nat.strongRecOn with
  | ind n ih =>
      rw [Nat.toDigits_eq_if hb]
      split
      case isTrue hn => simp [hv n hn]
      case isFalse hn =>
        rw [List.foldl_append, ih (n / b) (Nat.div_lt_self (by omega) hb), List.foldl_cons,
          List.foldl_nil, hv _ (Nat.mod_lt n (by omega))]
        exact Nat.div_add_mod n b

theorem hexDigit?_digitChar : ∀ d < 16, Json.Reading.hexDigit? d.digitChar = some d := by decide

def hexValue (cs : List Char) : Nat :=
  cs.foldl (fun v c => 16 * v + (Json.Reading.hexDigit? c).getD 0) 0

theorem toList_hex (w n : Nat) :
    (hex w n).toList = List.replicate (w - (Nat.toDigits 16 n).length) '0' ++
    Nat.toDigits 16 n := by
  rw [hex, String.toList_ofList]
  rfl

theorem hexValue_hex (w n : Nat) : hexValue (hex w n).toList = n := by
  have hzero (k : Nat) (cs : List Char) : hexValue (List.replicate k '0' ++ cs) = hexValue cs := by
    induction k with
    | zero => rfl
    | succ k ih => exact ih
  have hdigit (d : Nat) (hd : d < 16) : (Json.Reading.hexDigit? d.digitChar).getD 0 = d := by
    rw [hexDigit?_digitChar d hd, Option.getD_some]
  rw [toList_hex, hzero]
  exact foldl_toDigits (by omega) hdigit n

theorem exists_digit_of_mem_hex {w n : Nat} {c : Char} (h : c ∈ (hex w n).toList) :
    ∃ d, d < 16 ∧ c = d.digitChar := by
  rw [toList_hex] at h
  obtain h | h := List.mem_append.mp h
  · exact ⟨0, by omega, (List.mem_replicate.mp h).2⟩
  · exact exists_digit_of_mem (by omega) h

end StackScript.Text
