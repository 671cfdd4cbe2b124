import Mathlib.Algebra.Group.Int.Defs
import Mathlib.Data.List.Basic
import ScopedLisp.Builtin

/-!
# Checked arithmetic

Builtin functions compute with exact integers, and fail exactly when they have to.

* `Builtin.IsQuotient`: the quotient that is cut off towards zero, told by its remainder;
* `Builtin.signedQuotient_eq_tdiv`: the quotient that is computed;
* `Builtin.isQuotient_iff`, `Builtin.inRange_tdiv_iff`: there is one for every divisor but zero, and
  a single quotient of integers in range is out of range;
* `Builtin.Outcome`: how a call can end, in the order in which its operands are checked;
* `Builtin.outcome_call`: every call ends in one of these ways;
* **`Builtin.call_exact`**: arithmetic is exact, and the number of operands is reported before their
  kinds, and these before the result.
-/

namespace ScopedLisp

/-- The computation fails with an error of the given kind and report. -/
def FailsWith (x : Except Error Term) (kind : ErrorKind) (report : String) : Prop :=
  ∃ e, x = .error e ∧ e.kind = kind ∧ e.message = report

section FailsWith

variable {kind : ErrorKind} {report : String}

@[simp]
theorem failsWith_error {e : Error} :
    FailsWith (.error e) kind report ↔ e.kind = kind ∧ e.message = report := by
  simp [FailsWith]

@[simp]
theorem not_failsWith_ok {v : Term} : ¬ FailsWith (.ok v) kind report := by
  rintro ⟨e, ⟨⟩, -⟩

end FailsWith

theorem Term.isInt_iff {t : Term} : t.isInt = true ↔ ∃ n, t = .int n := by
  cases t <;> simp [isInt]

theorem Term.isBool_iff {t : Term} : t.isBool = true ↔ ∃ p, t = .bool p := by
  cases t <;> simp [isBool]

namespace Builtin

/-! ## Quotients -/

/-- The quotient of two integers that is cut off towards zero: the remainder is smaller than the
divisor, and is zero or has the sign of the dividend. -/
def IsQuotient (a b q : Int) : Prop :=
  ∃ r, a = q * b + r ∧ r.natAbs < b.natAbs ∧ (r = 0 ∨ r.sign = a.sign)

section Quotient

variable {a b q q' r : Int}

theorem same_side (h : r = 0 ∨ r.sign = a.sign) : (0 ≤ a → 0 ≤ r) ∧ (a ≤ 0 → r ≤ 0) := by
  rcases h with rfl | h
  · simp
  · constructor
    · intro ha
      rwa [← Int.sign_nonneg_iff, h, Int.sign_nonneg_iff]
    · intro ha
      rwa [← Int.sign_nonpos_iff, h, Int.sign_nonpos_iff]

theorem IsQuotient.unique (h : IsQuotient a b q) (h' : IsQuotient a b q') : q = q' := by
  obtain ⟨r, ha, hr, hsign⟩ := h
  obtain ⟨r', ha', hr', hsign'⟩ := h'
  have hdiff : (q - q') * b = r' - r := by
    rw [Int.sub_mul]
    omega
  -- both remainders are on the side of the dividend, so their difference is smaller than `b`
  have hsmall : (r' - r).natAbs < b.natAbs := by
    have hside := same_side hsign
    have hside' := same_side hsign'
    omega
  by_contra hne
  have hlarge : b.natAbs ≤ ((q - q') * b).natAbs := by
    rw [Int.natAbs_mul]
    exact Nat.le_mul_of_pos_left _ (by omega)
  rw [hdiff] at hlarge
  omega

theorem isQuotient_tdiv (hb : b ≠ 0) : IsQuotient a b (a.tdiv b) := by
  refine ⟨a.tmod b, (Int.tdiv_mul_add_tmod a b).symm, ?_, ?_⟩
  · rw [Int.natAbs_tmod]
    exact Nat.mod_lt _ (by omega)
  · by_cases hr : a.tmod b = 0
    · exact .inl hr
    · right
      rcases Int.lt_trichotomy a 0 with ha | rfl | ha
      · have hneg := Int.tmod_nonneg b (a := -a) (by omega)
        rw [Int.neg_tmod] at hneg
        rw [Int.sign_eq_neg_one_of_neg ha, Int.sign_eq_neg_one_of_neg (by omega)]
      · exact absurd (Int.zero_tmod b) hr
      · have hpos := Int.tmod_nonneg b (Int.le_of_lt ha)
        rw [Int.sign_eq_one_of_pos ha, Int.sign_eq_one_of_pos (by omega)]

theorem signedQuotient_eq_tdiv (a b : Int) : signedQuotient a b = a.tdiv b := by
  have hnonneg : ∀ n : Nat, ¬ (n : Int) < 0 := fun n => Int.not_lt.2 (Int.natCast_nonneg n)
  have hneg : ∀ n : Nat, Int.negSucc n < 0 := Int.negSucc_lt_zero
  unfold signedQuotient
  cases a with
  | ofNat m =>
    cases b with
    | ofNat n => simp [hnonneg]
    | negSucc n => simp [hnonneg, hneg, Int.tdiv]
  | negSucc m =>
    cases b with
    | ofNat n => simp [hnonneg, hneg, Int.tdiv]
    | negSucc n => simp [hneg, Int.tdiv]

/-- **Every divisor but zero leaves one quotient.** -/
theorem isQuotient_iff (hb : b ≠ 0) : IsQuotient a b q ↔ q = a.tdiv b :=
  ⟨fun h => h.unique (isQuotient_tdiv hb), fun h => h ▸ isQuotient_tdiv hb⟩

theorem inRange_iff_pow {n : Int} :
    Term.inRange n = true ↔ -2 ^ 63 ≤ n ∧ n ≤ 2 ^ 63 - 1 := by
  rw [Term.inRange_iff, Term.minInt, Term.maxInt]
  omega

/-- **Quotients of integers in range are in range, with one exception.** -/
theorem inRange_tdiv_iff (ha : Term.inRange a = true) (hb : b ≠ 0) :
    Term.inRange (a.tdiv b) = true ↔ ¬ (a = -2 ^ 63 ∧ b = -1) := by
  rw [inRange_iff_pow] at *
  constructor
  · rintro ⟨-, hle⟩ ⟨rfl, rfl⟩
    exact absurd hle (by decide)
  · intro hne
    by_cases hunit : b.natAbs = 1
    · rcases (show b = 1 ∨ b = -1 by omega) with rfl | rfl
      · rwa [Int.tdiv_one]
      · rw [Int.tdiv_neg, Int.tdiv_one]
        omega
    · -- any other divisor at least halves the dividend
      have hhalf : a.natAbs / b.natAbs ≤ a.natAbs / 2 :=
        Nat.div_le_div_left (by omega) (by decide)
      have habs : (a.tdiv b).natAbs = a.natAbs / b.natAbs := Int.natAbs_tdiv a b
      omega

end Quotient

/-! ## Results -/

/-- The computation gives `n` if this has 64 bits with sign, and else reports an overflow. -/
structure Computes (x : Except Error Term) (n : Int) : Prop where
  value_iff : x = .ok (.int n) ↔ -2 ^ 63 ≤ n ∧ n ≤ 2 ^ 63 - 1
  overflow_iff :
    FailsWith x .arithmetic "integer overflow" ↔ ¬ (-2 ^ 63 ≤ n ∧ n ≤ 2 ^ 63 - 1)

theorem computes_checked (n : Int) : Computes (checked n) n := by
  unfold checked
  split_ifs with h
  · rw [inRange_iff_pow] at h
    exact ⟨iff_of_true rfl h, iff_of_false not_failsWith_ok (not_not_intro h)⟩
  · rw [inRange_iff_pow] at h
    exact ⟨iff_of_false nofun h, iff_of_true ⟨.overflow, rfl, rfl, rfl⟩ h⟩

theorem call_div_of_ne {a b : Int} (hb : b ≠ 0) :
    div.call [.int a, .int b] = checked (a.tdiv b) := by
  rw [← signedQuotient_eq_tdiv]
  exact if_neg hb

theorem div_by_zero_iff {a b : Int} :
    FailsWith (div.call [.int a, .int b]) .arithmetic "division by zero" ↔ b = 0 := by
  by_cases hb : b = 0
  · subst hb
    exact ⟨fun _ => rfl, fun _ => ⟨.divisionByZero, rfl, rfl, rfl⟩⟩
  · refine iff_of_false ?_ hb
    rw [call_div_of_ne hb, checked]
    split_ifs
    · exact not_failsWith_ok
    · rw [failsWith_error]
      exact fun h => absurd h.2 (by decide)

theorem div_overflow_iff {a b : Int} (ha : Term.inRange a = true) :
    FailsWith (div.call [.int a, .int b]) .arithmetic "integer overflow" ↔
      a = -2 ^ 63 ∧ b = -1 := by
  by_cases hb : b = 0
  · subst hb
    have hcall : div.call [.int a, .int 0] = .error .divisionByZero := rfl
    rw [hcall, failsWith_error]
    exact ⟨fun h => absurd h.2 (by decide), fun h => absurd h.2 (by decide)⟩
  · rw [call_div_of_ne hb, (computes_checked _).overflow_iff, ← inRange_iff_pow,
      inRange_tdiv_iff ha hb, not_not]

/-! ## Operands -/

/-- The kinds of operands that builtin functions take. -/
inductive Operands where
  | integers
  | booleans
  /-- Integers or booleans, but not both. -/
  | alike
deriving DecidableEq

namespace Operands

/-- The operands are of the right kind. -/
def Fit : Operands → List Term → Prop
  | integers, args => ∀ t ∈ args, t.isInt = true
  | booleans, args => ∀ t ∈ args, t.isBool = true
  | alike, args => (∀ t ∈ args, t.isInt = true) ∨ ∀ t ∈ args, t.isBool = true

/-- The error of operands that are of another kind. -/
def error : Operands → Error
  | integers => .notNumber
  | booleans | alike => .notBoolean

end Operands

/-- The number of operands of a builtin function. -/
def arity : Builtin → Nat
  | not => 1
  | _ => 2

/-- The operands of a builtin function. -/
def operands : Builtin → Operands
  | add | sub | mul | div | gt | gte | lt | lte => .integers
  | eq | neq => .alike
  | and | or | not => .booleans

/-- How a call can end. The number of operands is checked first, then their kinds, and then the
result. -/
inductive Outcome (b : Builtin) (args : List Term) : Except Error Term → Prop
  | count (hcount : args.length ≠ b.arity) : Outcome b args (.error (.operandCount b.arity))
  | kind (hcount : args.length = b.arity) (hfit : ¬ b.operands.Fit args) :
      Outcome b args (.error b.operands.error)
  | arithmetic {e : Error} (hcount : args.length = b.arity) (hfit : b.operands.Fit args)
      (he : e.kind = .arithmetic) : Outcome b args (.error e)
  | value {v : Term} (hcount : args.length = b.arity) (hfit : b.operands.Fit args) :
      Outcome b args (.ok v)

/-- The conversion takes in the operands of one kind and reports all others. -/
structure Converts {α : Type} (convert : Term → Except Error α) (fits : Term → Bool) (e : Error) :
    Prop where
  ok : ∀ t, fits t = true → ∃ a, convert t = .ok a
  error : ∀ t, fits t = false → convert t = .error e

theorem converts_toInt : Converts toInt Term.isInt .notNumber where
  ok t h := by
    obtain ⟨n, rfl⟩ := Term.isInt_iff.1 h
    exact ⟨n, rfl⟩
  error t h := by
    cases t with
    | int n => cases h
    | _ => rfl

theorem converts_toBool : Converts toBool Term.isBool .notBoolean where
  ok t h := by
    obtain ⟨p, rfl⟩ := Term.isBool_iff.1 h
    exact ⟨p, rfl⟩
  error t h := by
    cases t with
    | bool p => cases h
    | _ => rfl

section Converts

variable {α : Type} {convert : Term → Except Error α} {fits : Term → Bool} {e : Error}

theorem pairOf_of_length_ne {args : List Term} (h : args.length ≠ 2) :
    pairOf convert args = .error (.operandCount 2) := by
  unfold pairOf
  split
  · exact absurd rfl h
  · rfl

theorem Converts.pairOf_of_fits (hc : Converts convert fits e) {args : List Term}
    (hcount : args.length = 2) (hfit : ∀ t ∈ args, fits t = true) :
    ∃ p, pairOf convert args = .ok p := by
  obtain ⟨s, t, rfl⟩ := List.length_eq_two.1 hcount
  obtain ⟨x, hx⟩ := hc.ok s (hfit s (by simp))
  obtain ⟨y, hy⟩ := hc.ok t (hfit t (by simp))
  exact ⟨(x, y), by rw [pairOf, hx, hy]; rfl⟩

theorem Converts.pairOf_of_not_fits (hc : Converts convert fits e) {args : List Term}
    (hcount : args.length = 2) (hfit : ¬ ∀ t ∈ args, fits t = true) :
    pairOf convert args = .error e := by
  obtain ⟨s, t, rfl⟩ := List.length_eq_two.1 hcount
  cases hs : fits s with
  | false =>
    rw [pairOf, hc.error s hs]
    rfl
  | true =>
    obtain ⟨x, hx⟩ := hc.ok s hs
    have ht : fits t = false := by simpa [hs] using hfit
    rw [pairOf, hx, hc.error t ht]
    rfl

theorem Converts.outcome (hc : Converts convert fits e) {b : Builtin} (harity : b.arity = 2)
    {args : List Term} (hfit : b.operands.Fit args ↔ ∀ t ∈ args, fits t = true)
    (he : b.operands.error = e) {f : α × α → Except Error Term}
    (hf : ∀ p e, f p = .error e → e.kind = .arithmetic) :
    Outcome b args (pairOf convert args >>= f) := by
  by_cases hcount : args.length = 2
  · by_cases hargs : ∀ t ∈ args, fits t = true
    · obtain ⟨p, hp⟩ := hc.pairOf_of_fits hcount hargs
      rw [hp]
      change Outcome b args (f p)
      cases hres : f p with
      | ok v => exact .value (hcount.trans harity.symm) (hfit.2 hargs)
      | error e' => exact .arithmetic (hcount.trans harity.symm) (hfit.2 hargs) (hf p e' hres)
    · rw [hc.pairOf_of_not_fits hcount hargs, ← he]
      exact .kind (hcount.trans harity.symm) (mt hfit.1 hargs)
  · rw [pairOf_of_length_ne hcount, ← harity]
    exact .count (by rwa [harity])

end Converts

theorem kind_of_checked {n : Int} {e : Error} (h : checked n = .error e) :
    e.kind = .arithmetic := by
  unfold checked at h
  split_ifs at h
  cases h
  rfl

/-! ## Equality -/

theorem equal_ints (m n : Int) : equal [.int m, .int n] = .ok (m == n) := rfl

theorem equal_bools (p q : Bool) : equal [.bool p, .bool q] = .ok (p == q) := rfl

theorem equal_of_length_ne {args : List Term} (h : args.length ≠ 2) :
    equal args = .error (.operandCount 2) := by
  rw [equal, pairOf_of_length_ne h, pairOf_of_length_ne h]
  rfl

/-- Two operands that are neither integers nor booleans are reported as the second attempt does. -/
theorem equal_of_not_fit {args : List Term} (hcount : args.length = 2)
    (hfit : ¬ Operands.alike.Fit args) : equal args = .error .notBoolean := by
  obtain ⟨hints, hbools⟩ := not_or.1 hfit
  rw [equal, converts_toInt.pairOf_of_not_fits hcount hints,
    converts_toBool.pairOf_of_not_fits hcount hbools]
  rfl

theorem alike_fit_iff {args : List Term} (hcount : args.length = 2) :
    Operands.alike.Fit args ↔
      (∃ m n, args = [.int m, .int n]) ∨ ∃ p q, args = [.bool p, .bool q] := by
  obtain ⟨s, t, rfl⟩ := List.length_eq_two.1 hcount
  simp [Operands.Fit, Term.isInt_iff, Term.isBool_iff]

theorem exists_of_equal_eq_ok {args : List Term} {r : Bool} (h : equal args = .ok r) :
    (∃ m n, args = [.int m, .int n] ∧ r = (m == n)) ∨
      ∃ p q, args = [.bool p, .bool q] ∧ r = (p == q) := by
  by_cases hcount : args.length = 2
  · by_cases hfit : Operands.alike.Fit args
    · rcases (alike_fit_iff hcount).1 hfit with ⟨m, n, rfl⟩ | ⟨p, q, rfl⟩
      · cases h
        exact .inl ⟨m, n, rfl, rfl⟩
      · cases h
        exact .inr ⟨p, q, rfl, rfl⟩
    · rw [equal_of_not_fit hcount hfit] at h
      cases h
  · rw [equal_of_length_ne hcount] at h
    cases h

theorem outcome_equal {b : Builtin} (harity : b.arity = 2) (hop : b.operands = .alike)
    (args : List Term) (f : Bool → Term) : Outcome b args ((equal args).map f) := by
  by_cases hcount : args.length = 2
  · by_cases hfit : Operands.alike.Fit args
    · rcases (alike_fit_iff hcount).1 hfit with ⟨m, n, rfl⟩ | ⟨p, q, rfl⟩
      · exact .value harity.symm (hop ▸ hfit)
      · exact .value harity.symm (hop ▸ hfit)
    · have herror : b.operands.error = .notBoolean := by rw [hop]; rfl
      rw [equal_of_not_fit hcount hfit, ← herror]
      exact .kind (hcount.trans harity.symm) (by rwa [hop])
  · rw [equal_of_length_ne hcount, ← harity]
    exact .count (by rwa [harity])

theorem outcome_negation (args : List Term) : Outcome not args (negation args) := by
  by_cases hcount : args.length = 1
  · obtain ⟨t, rfl⟩ := List.length_eq_one_iff.1 hcount
    rw [negation]
    cases ht : t.isBool with
    | true =>
      obtain ⟨p, hp⟩ := converts_toBool.ok t ht
      rw [hp]
      exact .value hcount (by simpa [operands, Operands.Fit] using ht)
    | false =>
      rw [converts_toBool.error t ht]
      exact .kind hcount (by simp [operands, Operands.Fit, ht])
  · have hcall : negation args = .error (.operandCount 1) := by
      unfold negation
      split
      · exact absurd rfl hcount
      · rfl
    rw [hcall]
    exact .count hcount

/-- **Every call ends in one of the ways that its operands leave.** -/
theorem outcome_call (b : Builtin) (args : List Term) : Outcome b args (b.call args) := by
  cases b with
  | add | sub | mul =>
    exact converts_toInt.outcome rfl .rfl rfl fun _ _ => kind_of_checked
  | div =>
    refine converts_toInt.outcome rfl .rfl rfl fun p e h => ?_
    dsimp only at h
    split_ifs at h
    · cases h
      rfl
    · exact kind_of_checked h
  | gt | gte | lt | lte => exact converts_toInt.outcome rfl .rfl rfl fun _ _ h => nomatch h
  | eq | neq => exact outcome_equal rfl rfl args _
  | and | or => exact converts_toBool.outcome rfl .rfl rfl fun _ _ h => nomatch h
  | not => exact outcome_negation args

/-! ## The order of the checks -/

theorem Operands.kind_error (o : Operands) : o.error.kind = .type := by
  cases o <;> rfl

namespace Outcome

variable {b : Builtin} {args : List Term} {x : Except Error Term}

theorem count_iff (h : Outcome b args x) :
    FailsWith x .arity ("required " ++ toString b.arity ++ " arguments") ↔
      args.length ≠ b.arity := by
  cases h with
  | count hcount => exact iff_of_true ⟨_, rfl, rfl, rfl⟩ hcount
  | kind hcount =>
    refine iff_of_false (fun h => ?_) (not_not_intro hcount)
    cases (failsWith_error.1 h).1.symm.trans (Operands.kind_error _)
  | arithmetic hcount _ he =>
    refine iff_of_false (fun h => ?_) (not_not_intro hcount)
    cases (failsWith_error.1 h).1.symm.trans he
  | value hcount => exact iff_of_false not_failsWith_ok (not_not_intro hcount)

theorem kind_iff (h : Outcome b args x) :
    FailsWith x .type b.operands.error.message ↔
      args.length = b.arity ∧ ¬ b.operands.Fit args := by
  cases h with
  | count hcount =>
    refine iff_of_false (fun h => ?_) fun h => hcount h.1
    cases (failsWith_error.1 h).1
  | kind hcount hfit =>
    exact iff_of_true ⟨_, rfl, Operands.kind_error _, rfl⟩ ⟨hcount, hfit⟩
  | arithmetic _ hfit he =>
    refine iff_of_false (fun h => ?_) fun h => h.2 hfit
    cases (failsWith_error.1 h).1.symm.trans he
  | value _ hfit => exact iff_of_false not_failsWith_ok fun h => h.2 hfit

theorem of_arithmetic {e : Error} (h : Outcome b args (.error e)) (he : e.kind = .arithmetic) :
    args.length = b.arity ∧ b.operands.Fit args := by
  cases h with
  | count => cases he
  | kind => cases he.symm.trans (Operands.kind_error _)
  | arithmetic hcount hfit => exact ⟨hcount, hfit⟩

theorem ne_ok (h : Outcome b args x) (hfit : ¬ b.operands.Fit args) (v : Term) : x ≠ .ok v := by
  rintro rfl
  cases h with
  | value _ h => exact hfit h

theorem of_fit (h : Outcome b args x) (hcount : args.length = b.arity)
    (hfit : b.operands.Fit args) :
    (∃ v, x = .ok v) ∨ ∃ e, x = .error e ∧ e.kind = .arithmetic := by
  cases h with
  | count h => exact absurd hcount h
  | kind _ h => exact absurd hfit h
  | arithmetic _ _ he => exact .inr ⟨_, rfl, he⟩
  | value => exact .inl ⟨_, rfl⟩

theorem alike_iff (h : Outcome b args x) (harity : b.arity = 2) (hop : b.operands = .alike) :
    (FailsWith x .arity "required 2 arguments" ↔ args.length ≠ 2) ∧
      (FailsWith x .type "the object is not a boolean" ↔
        args.length = 2 ∧
          ¬ ((∃ m n, args = [.int m, .int n]) ∨ ∃ p q, args = [.bool p, .bool q])) := by
  have hcount := h.count_iff
  have hkind := h.kind_iff
  rw [harity] at hcount hkind
  rw [hop] at hkind
  exact ⟨hcount, hkind.trans (and_congr_right fun h => not_congr (alike_fit_iff h))⟩

end Outcome

theorem map_equal_eq_ok_iff {args : List Term} (f : Bool → Term) {v : Term} :
    (equal args).map f = .ok v ↔
      (∃ m n, args = [.int m, .int n] ∧ v = f (m == n)) ∨
        ∃ p q, args = [.bool p, .bool q] ∧ v = f (p == q) := by
  constructor
  · intro h
    cases hequal : equal args with
    | error e => rw [hequal] at h; cases h
    | ok r =>
      rw [hequal] at h
      cases h
      rcases exists_of_equal_eq_ok hequal with ⟨m, n, hargs, rfl⟩ | ⟨p, q, hargs, rfl⟩
      · exact .inl ⟨m, n, hargs, rfl⟩
      · exact .inr ⟨p, q, hargs, rfl⟩
  · rintro (⟨m, n, rfl, rfl⟩ | ⟨p, q, rfl, rfl⟩)
    · rw [equal_ints]; rfl
    · rw [equal_bools]; rfl

/-- **Arithmetic is exact and every call fails exactly when it has to.** Of several faults of a call
the number of operands is reported first, then their kinds, then the result. -/
theorem call_exact :
    (∀ a b : Int,
      Computes (add.call [.int a, .int b]) (a + b) ∧
      Computes (sub.call [.int a, .int b]) (a - b) ∧
      Computes (mul.call [.int a, .int b]) (a * b) ∧
      (FailsWith (div.call [.int a, .int b]) .arithmetic "division by zero" ↔ b = 0) ∧
      (b ≠ 0 → ∃ q, (∀ q', IsQuotient a b q' ↔ q' = q) ∧
        Computes (div.call [.int a, .int b]) q) ∧
      (-2 ^ 63 ≤ a ∧ a ≤ 2 ^ 63 - 1 → -2 ^ 63 ≤ b ∧ b ≤ 2 ^ 63 - 1 →
        (FailsWith (div.call [.int a, .int b]) .arithmetic "integer overflow" ↔
          a = -2 ^ 63 ∧ b = -1))) ∧
    (∀ (b : Builtin) (args : List Term),
      (FailsWith (b.call args) .arity ("required " ++ toString b.arity ++ " arguments") ↔
        args.length ≠ b.arity) ∧
      (FailsWith (b.call args) .type b.operands.error.message ↔
        args.length = b.arity ∧ ¬ b.operands.Fit args) ∧
      (∀ e, b.call args = .error e → e.kind = .arithmetic →
        args.length = b.arity ∧ b.operands.Fit args) ∧
      (args.length = b.arity → b.operands.Fit args →
        (∃ v, b.call args = .ok v) ∨ ∃ e, b.call args = .error e ∧ e.kind = .arithmetic) ∧
      (∀ p v, b.operands = .integers → .bool p ∈ args → b.call args ≠ .ok v) ∧
      (∀ n v, b.operands = .booleans → .int n ∈ args → b.call args ≠ .ok v)) ∧
    ∀ args : List Term,
      (∀ v, eq.call args = .ok v ↔
        (∃ m n : Int, args = [.int m, .int n] ∧ v = .bool (m == n)) ∨
          ∃ p q : Bool, args = [.bool p, .bool q] ∧ v = .bool (p == q)) ∧
      (∀ v, neq.call args = .ok v ↔
        (∃ m n : Int, args = [.int m, .int n] ∧ v = .bool (m != n)) ∨
          ∃ p q : Bool, args = [.bool p, .bool q] ∧ v = .bool (p != q)) ∧
      ∀ b ∈ [eq, neq],
        (FailsWith (b.call args) .arity "required 2 arguments" ↔ args.length ≠ 2) ∧
        (FailsWith (b.call args) .type "the object is not a boolean" ↔
          args.length = 2 ∧ ¬ ((∃ m n, args = [.int m, .int n]) ∨
            ∃ p q, args = [.bool p, .bool q])) := by
  refine ⟨fun a b => ⟨computes_checked _, computes_checked _, computes_checked _, div_by_zero_iff,
    fun hb => ⟨a.tdiv b, fun q' => isQuotient_iff hb, ?_⟩, fun ha _ => ?_⟩, fun b args => ?_,
    fun args => ⟨fun v => map_equal_eq_ok_iff _, fun v => map_equal_eq_ok_iff fun r => .bool !r,
      fun b hb => ?_⟩⟩
  · rw [call_div_of_ne hb]
    exact computes_checked _
  · exact div_overflow_iff (inRange_iff_pow.2 ha)
  · have hout := outcome_call b args
    refine ⟨hout.count_iff, hout.kind_iff, fun e he => ?_, hout.of_fit,
      fun p v hop hmem => hout.ne_ok (fun hfit => ?_) v,
      fun n v hop hmem => hout.ne_ok (fun hfit => ?_) v⟩
    · rw [he] at hout
      exact hout.of_arithmetic
    · rw [hop] at hfit
      cases hfit _ hmem
    · rw [hop] at hfit
      cases hfit _ hmem
  · rcases List.mem_pair.1 hb with rfl | rfl
    · exact (outcome_call eq args).alike_iff rfl rfl
    · exact (outcome_call neq args).alike_iff rfl rfl

/-- The one quotient out of range, a quotient that rounding down would miss, and a number beside a
boolean. -/
theorem call_exact_edges :
    FailsWith (div.call [.int (-2 ^ 63), .int (-1)]) .arithmetic "integer overflow" ∧
      div.call [.int (-7), .int 2] = .ok (.int (-3)) ∧
      FailsWith (eq.call [.int 1, .bool true]) .type "the object is not a boolean" := by
  refine ⟨((call_exact.1 (-2 ^ 63) (-1)).2.2.2.2.2 (by decide) (by decide)).2 ⟨rfl, rfl⟩, ?_, ?_⟩
  · obtain ⟨q, hq, hcomputes⟩ := (call_exact.1 (-7) 2).2.2.2.2.1 (by decide)
    have hthree : IsQuotient (-7) 2 (-3) := ⟨-1, by decide, by decide, .inr rfl⟩
    obtain rfl := (hq _).1 hthree
    exact hcomputes.value_iff.2 (by decide)
  · exact ((call_exact.2.2 _).2.2 eq (by simp)).2.2 ⟨rfl, by simp⟩

end Builtin

end ScopedLisp
