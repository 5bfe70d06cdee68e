import FormulaNet.Proofs.Expr.Isolate
import FormulaNet.Proofs.Token.Lexer
import FormulaNet.Expr.Printer

/-!
# What prints like a textbook formula

Two different expressions may print alike if their symbols are no words.  Here the symbols are words, and an
arithmetic expression that prints like a symbol, or like an operation on two symbols, is that expression.
-/

namespace FormulaNet

open Scalar (Exact isNumeralChar)
open Token (IsWord continuesWord)

/-! ## Characters -/

/-- A word without digits. -/
def IsName (s : String) : Prop := ∀ c ∈ s.toList, continuesWord c = true ∧ c.isDigit = false

instance : DecidablePred IsName := fun s ↦
  List.decidableBAll (fun c ↦ continuesWord c = true ∧ c.isDigit = false) s.toList

/-- The characters that printing puts between symbols and numerals. -/
def isGlue (c : Char) : Bool := c ∈ ['(', ')', ' ', '-', '+', '*', '/']

/-- Two lists that agree, each split at the first occurrence of an element, agree in parts. -/
theorem split_injective {α : Type} {a : α} {xs xs' ys ys' : List α} (hx : a ∉ xs) (hx' : a ∉ xs')
    (h : xs ++ a :: ys = xs' ++ a :: ys') : xs = xs' ∧ ys = ys' := by
  induction xs generalizing xs' with
  | nil =>
      cases xs' with
      | nil => exact ⟨rfl, (List.cons.inj h).2⟩
      | cons x xs' => exact absurd (List.mem_cons.mpr (.inl (List.cons.inj h).1)) hx'
  | cons x xs ih =>
      cases xs' with
      | nil => exact absurd (List.mem_cons.mpr (.inl (List.cons.inj h).1.symm)) hx
      | cons x' xs' =>
          obtain ⟨rfl, htail⟩ := List.cons.inj h
          obtain ⟨rfl, rfl⟩ := ih (fun hm ↦ hx (List.mem_cons_of_mem x hm))
            (fun hm ↦ hx' (List.mem_cons_of_mem x hm)) htail
          exact ⟨rfl, rfl⟩

namespace Expr

variable {ν : Type} {e l r : Expr ν} {op : Operator} {a b : String}

/-- An arithmetic expression whose symbols are words. -/
structure Plain (e : Expr ν) : Prop where
  arithmetic : e.Arithmetic
  words : ∀ s, e.count s ≠ 0 → IsWord s

theorem Plain.of_neg (h : Plain (neg e)) : Plain e := ⟨h.arithmetic, h.words⟩

theorem Plain.left (h : Plain (bin op l r)) : Plain l :=
  ⟨h.arithmetic.2.1, fun s hs ↦ h.words s (by rw [count_bin]; omega)⟩

theorem Plain.right (h : Plain (bin op l r)) : Plain r :=
  ⟨h.arithmetic.2.2, fun s hs ↦ h.words s (by rw [count_bin]; omega)⟩

theorem Plain.isWord {s : String} (h : Plain (sym s : Expr ν)) : IsWord s := h.words s (by simp)

/-- A name, or an operation on two names. -/
inductive Named : Expr ν → Prop
  | sym {a : String} : IsName a → Named (sym a)
  | bin {op : Operator} {a b : String} : IsName a → IsName b → op ≠ .pow → Named (bin op (sym a) (sym b))

theorem Named.plain (h : Named e) : Plain e := by
  cases h with
  | @sym a ha =>
      refine ⟨trivial, fun s hs ↦ ?_⟩
      obtain rfl : a = s := by
        by_contra has
        exact hs (if_neg has)
      exact fun c hc ↦ (ha c hc).1
  | @bin op a b ha hb hop =>
      refine ⟨⟨hop, trivial, trivial⟩, fun s hs ↦ ?_⟩
      by_cases has : a = s
      · exact fun c hc ↦ (ha c (has ▸ hc)).1
      · obtain rfl : b = s := by
          by_contra hbs
          exact hs (by simp [has, hbs])
        exact fun c hc ↦ (hb c hc).1

variable [Exact ν]

theorem mem_bracketed {brackets : Bool} {s : String} {c : Char} :
    c ∈ (bracketed brackets s).toList ↔ c ∈ s.toList ∨ brackets = true ∧ (c = '(' ∨ c = ')') := by
  cases brackets with
  | false => simp
  | true =>
      simp only [bracketed_true, String.toList_append, List.mem_append, true_and]
      simp
      tauto

/-- Every character of a plain expression belongs to a word, to a numeral, or between them. -/
theorem mem_print (h : Plain e) {c : Char} (hc : c ∈ e.print.toList) :
    continuesWord c = true ∨ isNumeralChar c = true ∨ isGlue c = true := by
  induction e with
  | num x => exact .inr (.inl (Exact.text_chars x c hc))
  | sym s => exact .inl (h.isWord c hc)
  | neg e ih =>
      rw [print, String.toList_append, List.mem_append, mem_bracketed] at hc
      rcases hc with hc | hc | ⟨-, rfl | rfl⟩
      · obtain rfl : c = '-' := by simpa using hc
        exact .inr (.inr (by decide))
      · exact ih h.of_neg hc
      · exact .inr (.inr (by decide))
      · exact .inr (.inr (by decide))
  | bin op l r ihl ihr =>
      simp only [print, String.toList_append, List.mem_append, mem_bracketed] at hc
      rcases hc with (((((hc | ⟨-, rfl | rfl⟩) | hc) | hc) | hc) | hc | ⟨-, rfl | rfl⟩)
      · exact ihl h.left hc
      · exact .inr (.inr (by decide))
      · exact .inr (.inr (by decide))
      · obtain rfl : c = ' ' := by simpa using hc
        exact .inr (.inr (by decide))
      · have hop := h.arithmetic.1
        cases op with
        | pow => exact absurd rfl hop
        | add | sub | mul | div =>
            simp only [Operator.sign] at hc
            obtain rfl := by simpa using hc
            exact .inr (.inr (by decide))
      · obtain rfl : c = ' ' := by simpa using hc
        exact .inr (.inr (by decide))
      · exact ihr h.right hc
      · exact .inr (.inr (by decide))
      · exact .inr (.inr (by decide))
  | call f e ih => cases h.arithmetic

/-- No blanks in words. -/
theorem blank_notMem_of_isWord {s : String} (h : IsWord s) : ' ' ∉ s.toList :=
  fun hb ↦ absurd (h ' ' hb) (by decide)

/-! ## Expressions by their print -/

/-- A plain expression that prints like a name is that symbol. -/
theorem eq_sym_of_print (h : Plain e) (ha : IsName a) (hp : e.print = a) : e = sym a := by
  cases e with
  | num x =>
      obtain ⟨c, hc, hdigit⟩ := Exact.text_digit x
      subst hp
      rw [(ha c hc).2] at hdigit
      cases hdigit
  | sym s => exact congrArg sym hp
  | neg e =>
      subst hp
      refine absurd (ha '-' ?_).1 (by decide)
      simp [print]
  | bin op l r =>
      subst hp
      refine absurd (ha ' ' ?_).1 (by decide)
      simp [print]
  | call f e => cases h.arithmetic

theorem print_bin_sym (op : Operator) (a b : String) :
    (bin op (sym a) (sym b) : Expr ν).print = a ++ " " ++ op.sign ++ " " ++ b := by
  cases op <;> rfl

theorem toList_print_bin : (bin op l r).print.toList =
    (bracketed (bracketsLeft op l) l.print).toList ++ ' ' :: (op.sign.toList ++
      ' ' :: (bracketed (bracketsRight op r) r.print).toList) := by
  simp [print]

theorem sign_injective {op op' : Operator} (h : op.sign = op'.sign) : op = op' := by
  cases op <;> cases op' <;> first | rfl | exact absurd h (by decide)

theorem blank_notMem_sign : ' ' ∉ op.sign.toList := by
  cases op <;> decide

/-- What is in brackets is no name. -/
theorem eq_of_bracketed {brackets : Bool} {s : String} (ha : IsName a) (h : bracketed brackets s = a) :
    s = a := by
  cases brackets with
  | false => exact h
  | true =>
      subst h
      exact absurd (ha '(' (mem_bracketed.mpr (.inr ⟨rfl, .inl rfl⟩))).1 (by decide)

/-- There are no digits in an operation on two names. -/
theorem isDigit_eq_false_of_mem (ha : IsName a) (hb : IsName b) {c : Char}
    (hc : c ∈ a.toList ++ ' ' :: (op.sign.toList ++ ' ' :: b.toList)) : c.isDigit = false := by
  simp only [List.mem_append, List.mem_cons] at hc
  rcases hc with hc | rfl | hc | rfl | hc
  · exact (ha c hc).2
  · rfl
  · have hsign : ∀ c ∈ op.sign.toList, c.isDigit = false := by
      cases op <;> simp [Operator.sign]
    exact hsign c hc
  · rfl
  · exact (hb c hc).2

/-- A plain expression that prints like an operation on two names is that operation. -/
theorem eq_bin_of_print (h : Plain e) (ha : IsName a) (hb : IsName b)
    (hp : e.print = (bin op (sym a) (sym b) : Expr ν).print) : e = bin op (sym a) (sym b) := by
  have hablank := blank_notMem_of_isWord fun c hc ↦ (ha c hc).1
  have hbblank := blank_notMem_of_isWord fun c hc ↦ (hb c hc).1
  have hp : e.print.toList = a.toList ++ ' ' :: (op.sign.toList ++ ' ' :: b.toList) := by
    rw [hp, print_bin_sym]
    simp
  cases e with
  | num x =>
      obtain ⟨c, hc, hdigit⟩ := Exact.text_digit x
      rw [show (Scalar.text x).toList = _ from hp] at hc
      rw [isDigit_eq_false_of_mem ha hb hc] at hdigit
      cases hdigit
  | sym s =>
      refine absurd ?_ (blank_notMem_of_isWord h.isWord)
      rw [show s.toList = _ from hp]
      simp
  | neg e =>
      -- the print of a negation begins with its sign, and a name does not
      rw [print, String.toList_append, show "-".toList = ['-'] from rfl, List.singleton_append] at hp
      cases hcs : a.toList with
      | nil => simp [hcs] at hp
      | cons c cs =>
          rw [hcs] at hp
          obtain rfl : '-' = c := (List.cons.inj hp).1
          exact absurd (ha '-' (by rw [hcs]; exact List.mem_cons_self)).1 (by decide)
  | bin op' l r =>
      rw [toList_print_bin] at hp
      have hcount := congrArg (List.count ' ') hp
      simp only [List.count_append, List.count_cons_self, List.count_eq_zero_of_not_mem hablank,
        List.count_eq_zero_of_not_mem hbblank, List.count_eq_zero_of_not_mem blank_notMem_sign] at hcount
      have hleft : ' ' ∉ (bracketed (bracketsLeft op' l) l.print).toList := List.count_eq_zero.mp (by omega)
      obtain ⟨hl, hrest⟩ := split_injective hleft hablank hp
      obtain ⟨hsign, hr⟩ := split_injective blank_notMem_sign blank_notMem_sign hrest
      obtain rfl : op' = op := sign_injective (String.toList_inj.mp hsign)
      have hl := eq_of_bracketed ha (String.toList_inj.mp hl)
      have hr := eq_of_bracketed hb (String.toList_inj.mp hr)
      rw [eq_sym_of_print h.left ha hl, eq_sym_of_print h.right hb hr]
  | call f e => cases h.arithmetic

/-- A plain expression that prints like a named one is that one. -/
theorem Named.eq_of_print {p : Expr ν} (hn : Named p) (h : Plain e) (hp : e.print = p.print) : e = p := by
  cases hn with
  | sym ha => exact eq_sym_of_print h ha hp
  | bin ha hb hop => exact eq_bin_of_print h ha hb hp

end Expr

namespace Equation

open FormulaNet.Expr

variable {ν : Type} [Exact ν] {p q : Equation ν}

theorem toList_print (q : Equation ν) :
    q.print.toList = q.lhs.print.toList ++ ' ' :: '=' :: ' ' :: q.rhs.print.toList := by
  simp [print]

/-- A plain equation that prints like one between named expressions is that one. -/
theorem eq_of_print (hl : Named p.lhs) (hr : Named p.rhs) (hql : Plain q.lhs) (hqr : Plain q.rhs)
    (hp : q.print = p.print) : q = p := by
  have hequals : ∀ {e : Expr ν}, Plain e → '=' ∉ e.print.toList ++ [' '] := by
    intro e he hmem
    rcases List.mem_append.mp hmem with hmem | hmem
    · rcases mem_print he hmem with h | h | h
      · exact absurd h (by decide)
      · exact absurd h (by decide)
      · exact absurd h (by decide)
    · exact absurd hmem (by decide)
  have hsplit : ∀ q : Equation ν,
      q.print.toList = (q.lhs.print.toList ++ [' ']) ++ '=' :: ' ' :: q.rhs.print.toList := by
    intro q
    rw [toList_print]
    simp
  have hlists := congrArg String.toList hp
  rw [hsplit, hsplit] at hlists
  obtain ⟨hlhs, hrhs⟩ := split_injective (hequals hql) (hequals hl.plain) hlists
  have hlhs := hl.eq_of_print hql (String.toList_inj.mp (List.append_cancel_right hlhs))
  have hrhs := hr.eq_of_print hqr (String.toList_inj.mp (List.cons.inj hrhs).2)
  cases q
  cases p
  simp_all

end Equation

end FormulaNet
