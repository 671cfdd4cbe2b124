import ScopedLisp.Proofs.Moments

/-!
# Regions of programs

Blocks and functions have scopes of their own. A region is the part of a program that such a scope
belongs to.

* `Region`, `Term.region?`: the regions, and the one that a term makes of a part of it;
* `Region.Declares`: the names that are bound in a region and in no further one inside of it;
* `Term.Readable.sets`: evaluation binds no other names in the scope of a term;
* `Activation.of_run_of_region?`: a function belongs to the region of the form that made it.
-/

namespace ScopedLisp

/-- A part of a program that has a scope of its own: the parts of a block, or the body of a
function. -/
inductive Region where
  | block (parts : List Term)
  | body (params : List Symbol) (e : Term)

namespace Term

/-- The region that a term makes of its part `j`. -/
def region? : Term → Nat → Option Region
  | list (head :: parts), j =>
    match Keyword.ofTerm? head, parts, j with
    | some .block, parts, _ + 1 => some (.block parts)
    | some .define, [_, params, body], 3 =>
      some (.body ((paramNames params).toOption.getD []) body)
    | some .lambda, [params, body], 2 => some (.body ((paramNames params).toOption.getD []) body)
    | _, _, _ => none
  | _, _ => none

/-- The name that a term is there to bind. -/
def target? : Term → Option Symbol
  | list (head :: target :: _) =>
    match Keyword.ofTerm? head with
    | some .bind | some .define => target.symbol?
    | _ => none
  | _ => none

/-- A name is bound in a term, and in no further region inside of it. -/
inductive Sets (name : Symbol) : Term → Prop
  | here {e : Term} (h : e.target? = some name) : Sets name e
  | inside {e part : Term} {j : Nat} (hpart : e.part? j = some part)
      (hregion : e.region? j = none) (h : Sets name part) : Sets name e

variable {head e : Term} {parts items : List Term} {params : List Symbol} {j : Nat} {name : Symbol}

theorem exists_part?_of_mem (h : e ∈ items) : ∃ j, (list items).part? j = some e := by
  obtain ⟨j, hj⟩ := List.getElem?_of_mem h
  exact ⟨j, hj⟩

theorem region?_block (hk : Keyword.ofTerm? head = some .block) (parts : List Term) (j : Nat) :
    (list (head :: parts)).region? (j + 1) = some (.block parts) := by
  simp only [region?, hk]

theorem region?_define (hk : Keyword.ofTerm? head = some .define) (target params body : Term) :
    (list [head, target, params, body]).region? 3 =
      some (.body ((paramNames params).toOption.getD []) body) := by
  simp only [region?, hk]

theorem region?_lambda (hk : Keyword.ofTerm? head = some .lambda) (params body : Term) :
    (list [head, params, body]).region? 2 =
      some (.body ((paramNames params).toOption.getD []) body) := by
  simp only [region?, hk]

theorem region?_eq_none (hk : ∀ k, Keyword.ofTerm? head = some k → k = .bind ∨ k = .choose)
    (parts : List Term) (j : Nat) : (list (head :: parts)).region? j = none := by
  simp only [region?]
  split
  · next hb => exact absurd (hk _ hb) (by decide)
  · next hd => exact absurd (hk _ hd) (by decide)
  · next hl => exact absurd (hk _ hl) (by decide)
  · rfl

theorem of_region?_eq_block (h : e.region? j = some (.block parts)) :
    ∃ head i, e = list (head :: parts) ∧ Keyword.ofTerm? head = some .block ∧ j = i + 1 := by
  unfold region? at h
  split at h
  · split at h
    · next hk =>
      cases h
      exact ⟨_, _, rfl, hk, rfl⟩
    all_goals cases h
  · cases h

theorem of_region?_eq_body (h : e.region? j = some (.body params body)) :
    ∃ head list, params = (paramNames list).toOption.getD [] ∧
      ((Keyword.ofTerm? head = some .lambda ∧ e = .list [head, list, body] ∧ j = 2) ∨
        ∃ target, Keyword.ofTerm? head = some .define ∧ e = .list [head, target, list, body] ∧
          j = 3) := by
  unfold region? at h
  split at h
  · split at h
    · cases h
    · next hk =>
      cases h
      exact ⟨_, _, rfl, .inr ⟨_, hk, rfl, rfl⟩⟩
    · next hk =>
      cases h
      exact ⟨_, _, rfl, .inl ⟨hk, rfl, rfl⟩⟩
    · cases h
  · cases h

theorem mem_targetsOfAll {es : List Term} :
    name ∈ targetsOfAll es ↔ ∃ e ∈ es, name ∈ e.targets := by
  induction es with
  | nil => simp [targetsOfAll]
  | cons e es ih => simp [targetsOfAll, ih]

theorem Readable.sets (he : e.Readable) (h : name ∈ e.targets) : e.Sets name := by
  induction he with
  | bool | int | symbol => exact absurd h List.not_mem_nil
  | @list items _ ih =>
    -- parts that are evaluated in the same scope are in no further region
    have hinside : ∀ head parts, items = head :: parts →
        (∀ k, Keyword.ofTerm? head = some k → k = .bind ∨ k = .choose) →
        ∀ part ∈ items, name ∈ part.targets → (Term.list items).Sets name := by
      rintro head parts rfl hk part hmem hname
      obtain ⟨j, hj⟩ := exists_part?_of_mem hmem
      exact .inside hj (region?_eq_none hk parts j) (ih part hmem hname)
    unfold targets at h
    split at h
    · next head parts hitems =>
      cases hitems
      split at h
      · cases h
      · cases h
      · next hk =>
        split at h
        · rcases List.mem_append.1 h with h | h
          · exact hinside _ _ rfl (by simp [hk]) _ (by simp) h
          · exact .here (by simpa [target?, hk] using h)
        · cases h
      · next hk =>
        obtain ⟨part, hmem, hname⟩ := mem_targetsOfAll.1 h
        exact hinside _ _ rfl (by simp [hk]) part (List.mem_cons_of_mem _ hmem) hname
      · next hk =>
        split at h
        · exact .here (by simpa [target?, hk] using h)
        · cases h
      · next hk =>
        rcases List.mem_append.1 h with h | h
        · exact hinside _ _ rfl (by simp [hk]) head List.mem_cons_self h
        · obtain ⟨part, hmem, hname⟩ := mem_targetsOfAll.1 h
          exact hinside _ _ rfl (by simp [hk]) part (List.mem_cons_of_mem _ hmem) hname
    · cases h

end Term

/-- The names that a region declares: the parameters of the function, and the names that are bound
in the region and in no further one inside of it. -/
def Region.Declares : Region → Symbol → Prop
  | block parts, name => ∃ e ∈ parts, e.Sets name
  | body params e, name => name ∈ params ∨ e.Sets name

theorem Activation.of_run_of_region? {rule : Liveness} {c : Activation} {t : Store} {fn e : Term}
    {params : List Symbol} {j : Nat} (hrun : c.run rule = .ok fn t)
    (hregion : c.term.region? j = some (.body params e)) :
    ∃ head list, paramNames list = .ok params ∧
      ((Keyword.ofTerm? head = some .lambda ∧ c.term = .list [head, list, e] ∧ j = 2 ∧
          fn = .closure params e c.scope) ∨
        ∃ target name, Keyword.ofTerm? head = some .define ∧
          c.term = .list [head, target, list, e] ∧ j = 3 ∧ target.symbol? = some name ∧
          fn = .named name params e c.scope) := by
  obtain ⟨limit, held', scope', term, s'⟩ := c
  cases limit with
  | zero => cases hrun
  | succ limit =>
  obtain ⟨head, list, hparams, ⟨hk, rfl, rfl⟩ | ⟨target, hk, rfl, rfl⟩⟩ :=
    Term.of_region?_eq_body hregion
  all_goals rw [Activation.run, evaluateWith_form hk] at hrun
  · cases hnames : paramNames list with
    | error err =>
      simp only [evaluateForm, hnames] at hrun
      cases hrun
    | ok names =>
      rw [evaluateForm_lambda hnames] at hrun
      cases hrun
      rw [hnames] at hparams
      cases hparams
      exact ⟨head, list, hnames, .inl ⟨hk, rfl, rfl, rfl⟩⟩
  · cases hname : target.symbol? with
    | none =>
      simp only [evaluateForm, hname] at hrun
      cases hrun
    | some name =>
      cases hnames : paramNames list with
      | error err =>
        simp only [evaluateForm, hname, hnames] at hrun
        cases hrun
      | ok names =>
        rw [evaluateForm_define hname hnames] at hrun
        obtain ⟨-, rfl, -⟩ := Eval.of_define_eq_ok hrun
        rw [hnames] at hparams
        cases hparams
        exact ⟨head, list, hnames, .inr ⟨target, name, hk, rfl, rfl, hname, rfl⟩⟩

theorem Activation.of_enters_of_region? {alive rule : Liveness} {c : Activation} {held : Held}
    {s t : Store} {fn body e : Term} {names params : List Symbol} {scope : ScopeId} {j : Nat}
    (henters : fn.Enters alive held s names body scope) (hrun : c.run rule = .ok fn t)
    (hregion : c.term.region? j = some (.body params e)) :
    names = params ∧ body = e ∧ scope = c.scope ∧ c.term.part? j = some e := by
  obtain ⟨head, list, -, ⟨-, hterm, rfl, rfl⟩ | ⟨target, name, -, hterm, rfl, -, rfl⟩⟩ :=
    of_run_of_region? hrun hregion
  all_goals
    cases henters
    rw [hterm]
    exact ⟨rfl, rfl, rfl, rfl⟩

end ScopedLisp
