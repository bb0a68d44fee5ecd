import HybridCheck.Proofs.FormulaText
import HybridCheck.Proofs.Valuation

/-!
# Separation keeps truth

Every existential operator that is reached from the root through conjunctions and disjunctions has a
witness, and separation leaves the witness in its place. A witness stands for the operator being
satisfied at the instant that was guessed for it. So a separated formula that holds shows that the
formula itself does, and if the formula holds then instants can be guessed for which the separated
formula does. Subformulas of one text share a witness; they hold at the same instants.
-/

namespace HybridCheck

theorem Table.length_put {α : Type} {t : Table α} {name : String} (v : α)
    (h : t.get? name = none) : (t.put name v).length = t.length + 1 := by
  induction t with
  | nil => rfl
  | cons e t ih =>
    obtain ⟨k, w⟩ := e
    rw [get?] at h
    split at h
    · cases h
    · next hk =>
      rw [put, if_neg hk]
      split
      · rfl
      · simp [ih h]

/-! ## Numbering witnesses -/

/-- Witnesses are numbered, no two subformulas share one, and every constraint places one of them
in the trace. -/
structure Numbered (b : Timeline) (t : Guesses × List Term) : Prop where
  witness : ∀ key w, t.1.get? key = some w → ∃ i : Nat, i < t.1.length ∧ w = Symbol.witness i
  unique : ∀ key key' w, t.1.get? key = some w → t.1.get? key' = some w → key = key'
  placed : ∀ c ∈ t.2, ∃ i : Nat, c = b.domain (.var (Symbol.witness i))

namespace Formula

variable {b : Timeline} {acc : Guesses × List Term}

theorem numbered_guessOne (h : Numbered b acc) (key : String) :
    Numbered b (guessOne b key acc) := by
  unfold guessOne
  split
  · exact h
  · next hkey =>
    have absent : acc.1.get? key = none := by simpa [Table.has] using hkey
    have hlen := Table.length_put (Symbol.witness acc.1.length) absent
    have fresh {key' : String} : acc.1.get? key' ≠ some (Symbol.witness acc.1.length) := by
      intro h'
      obtain ⟨i, hi, hw⟩ := h.witness _ _ h'
      have := Symbol.witness_inj.1 hw
      omega
    refine ⟨fun k w hw => ?_, fun k k' w hk hk' => ?_, fun c hc => ?_⟩
    · dsimp only at hw ⊢
      by_cases hkk : key = k
      · subst hkk
        rw [Table.get?_put_self] at hw
        cases hw
        exact ⟨acc.1.length, by omega, rfl⟩
      · rw [Table.get?_put_of_ne _ _ hkk] at hw
        obtain ⟨i, hi, hw⟩ := h.witness k w hw
        exact ⟨i, by omega, hw⟩
    · dsimp only at hk hk'
      by_cases hkk : key = k
      · subst hkk
        rw [Table.get?_put_self] at hk
        cases hk
        by_contra hne
        rw [Table.get?_put_of_ne _ _ hne] at hk'
        exact fresh hk'
      · rw [Table.get?_put_of_ne _ _ hkk] at hk
        by_cases hkk' : key = k'
        · subst hkk'
          rw [Table.get?_put_self] at hk'
          cases hk'
          exact absurd hk fresh
        · rw [Table.get?_put_of_ne _ _ hkk'] at hk'
          exact h.unique k k' w hk hk'
    · rcases List.mem_append.1 hc with hc | hc
      · exact h.placed c hc
      · exact ⟨acc.1.length, by simpa using hc⟩

/-- What guessing one witness keeps, guessing the witnesses of a formula keeps. -/
theorem guessFrom_keeps {I : Guesses × List Term → Prop}
    (one : ∀ key acc, I acc → I (guessOne b key acc)) (f : Formula) (h : I acc) :
    I (guessFrom b acc f) := by
  have all {fs : List Formula} {acc : Guesses × List Term} (h : I acc)
      (ih : ∀ f ∈ fs, ∀ acc, I acc → I (guessFrom b acc f)) : I (guessAll b acc fs) := by
    induction fs generalizing acc with
    | nil => exact h
    | cons f fs ih' =>
      rw [guessAll]
      exact ih' (ih f (by simp) acc h) fun f hf => ih f (by simp [hf])
  induction f using Formula.induct generalizing acc with
  | and fs ih | or fs ih =>
    rw [guessFrom]
    exact all h fun f hf acc h => ih f hf h
  | eventually w f | untl w l r =>
    rw [guessFrom]
    exact one _ _ h
  | _ => exact h

theorem numbered_guessFrom (f : Formula) (h : Numbered b acc) : Numbered b (guessFrom b acc f) :=
  guessFrom_keeps (I := Numbered b) (fun key _ h => numbered_guessOne h key) f h

theorem numbered_nil : Numbered b ([], []) :=
  ⟨fun _ _ h => by simp at h, fun _ _ _ h => by simp at h, by simp⟩

/-- The constraints place exactly the witnesses that were guessed. -/
structure Placed (b : Timeline) (t : Guesses × List Term) : Prop where
  domain : ∀ key w, t.1.get? key = some w → b.domain (.var w) ∈ t.2
  guessed : ∀ c ∈ t.2, ∃ key w, t.1.get? key = some w ∧ c = b.domain (.var w)

theorem placed_guessOne (h : Placed b acc) (key : String) : Placed b (guessOne b key acc) := by
  unfold guessOne
  split
  · exact h
  · next hkey =>
    have absent : acc.1.get? key = none := by simpa [Table.has] using hkey
    refine ⟨fun k w hw => ?_, fun c hc => ?_⟩
    · dsimp only at hw ⊢
      by_cases hkk : key = k
      · subst hkk
        rw [Table.get?_put_self] at hw
        cases hw
        simp
      · rw [Table.get?_put_of_ne _ _ hkk] at hw
        exact List.mem_append_left _ (h.domain k w hw)
    · rcases List.mem_append.1 hc with hc | hc
      · obtain ⟨k, w, hw, rfl⟩ := h.guessed c hc
        have hkk : key ≠ k := by
          rintro rfl
          rw [absent] at hw
          cases hw
        exact ⟨k, w, (Table.get?_put_of_ne _ _ hkk).trans hw, rfl⟩
      · exact ⟨key, _, Table.get?_put_self _ _ _, by simpa using hc⟩

theorem numbered_of_guess {f : Formula} {g : Guessed} (h : f.guess b = .ok g) :
    Numbered b (g.guesses, g.constraints) := by
  obtain ⟨p, -, h⟩ := Attempt.bind_eq_ok.1 h
  cases h
  exact numbered_guessFrom f.nnf numbered_nil

theorem placed_of_guess {f : Formula} {g : Guessed} (h : f.guess b = .ok g) :
    Placed b (g.guesses, g.constraints) := by
  obtain ⟨p, -, h⟩ := Attempt.bind_eq_ok.1 h
  cases h
  have none : Placed b ([], []) := ⟨fun _ _ h => by simp at h, by simp⟩
  exact guessFrom_keeps (I := Placed b) (fun key _ h => placed_guessOne h key) f.nnf none

/-! ## Separating formulas -/

/-- The formulas that get a witness. -/
def isExistential : Formula → Bool
  | eventually .. | untl .. => true
  | _ => false

/-- A formula and what is left of it when some existential parts were replaced by their
witnesses. -/
inductive Separates (guesses : Guesses) (sub : Table Formula) : Formula → Formula → Prop where
  | kept (f : Formula) : Separates guesses sub f f
  | guessed {f : Formula} {w : Var} : guesses.get? f.text = some w →
      (sub.get? w.name).isSome = true → Separates guesses sub f (witness w)
  | and {fs gs : List Formula} : List.Forall₂ (Separates guesses sub) fs gs →
      Separates guesses sub (and fs) (and gs)
  | or {fs gs : List Formula} : List.Forall₂ (Separates guesses sub) fs gs →
      Separates guesses sub (or fs) (or gs)

/-- Every subformula that was kept aside is existential and stands under its witness. -/
def Kept (Q : Formula → Prop) (guesses : Guesses) (sub : Table Formula) : Prop :=
  ∀ name f, sub.get? name = some f → Q f ∧ f.isExistential = true ∧
    ∃ w, guesses.get? f.text = some w ∧ w.name = name

variable {Q : Formula → Prop} {guesses : Guesses} {sub sub' : Table Formula}

def Within (sub sub' : Table Formula) : Prop :=
  ∀ name, (sub.get? name).isSome = true → (sub'.get? name).isSome = true

/-- Induction over separated formulas, the operands of a conjunction or disjunction taken one by
one. -/
@[elab_as_elim]
theorem Separates.induct {motive : Formula → Formula → Prop} (kept : ∀ f, motive f f)
    (guessed : ∀ f w, guesses.get? f.text = some w → (sub.get? w.name).isSome = true →
      motive f (.witness w))
    (and : ∀ fs gs, List.Forall₂ motive fs gs → motive (.and fs) (.and gs))
    (or : ∀ fs gs, List.Forall₂ motive fs gs → motive (.or fs) (.or gs)) {f g : Formula}
    (h : Separates guesses sub f g) : motive f g :=
  @Separates.rec guesses sub (fun f g _ => motive f g) (fun fs gs _ => List.Forall₂ motive fs gs)
    kept (fun {f w} => guessed f w) (fun {fs gs} _ => and fs gs) (fun {fs gs} _ => or fs gs) .nil
    (fun _ _ hfg hall => .cons hfg hall) f g h

theorem Separates.mono (h : Within sub sub') {f g : Formula} (hs : Separates guesses sub f g) :
    Separates guesses sub' f g := by
  refine Separates.induct (motive := Separates guesses sub') .kept ?_ (fun _ _ => .and)
    (fun _ _ => .or) hs
  exact fun f w hg hsub => .guessed hg (h _ hsub)

theorem within_put (sub : Table Formula) (name : String) (f : Formula) :
    Within sub (sub.put name f) := by
  intro name' h
  by_cases hn : name = name'
  · subst hn
    simp
  · rwa [Table.get?_put_of_ne _ _ hn]

theorem Kept.put (h : Kept Q guesses sub) {f : Formula} {w : Var} (hQ : Q f)
    (hf : f.isExistential = true) (hw : guesses.get? f.text = some w) :
    Kept Q guesses (sub.put w.name f) := by
  intro name g hg
  by_cases hn : w.name = name
  · subst hn
    rw [Table.get?_put_self] at hg
    cases hg
    exact ⟨hQ, hf, w, hw, rfl⟩
  · rw [Table.get?_put_of_ne _ _ hn] at hg
    exact h name g hg

/-- What separation makes of a formula and of the subformulas kept so far. -/
structure SeparatesInto (Q : Formula → Prop) (guesses : Guesses) (sub : Table Formula) (f : Formula)
    (result : Formula × Table Formula) : Prop where
  kept : Kept Q guesses result.2
  within : Within sub result.2
  separates : Separates guesses result.2 f result.1

theorem separateOne_spec {f : Formula} (hQ : Q f) (hf : f.isExistential = true)
    (h : Kept Q guesses sub) : SeparatesInto Q guesses sub f
      (match guesses.get? f.text with
        | some w => (witness w, sub.put w.name f)
        | none => (f, sub)) := by
  split
  · next w hw => exact ⟨h.put hQ hf hw, within_put _ _ _, .guessed hw (by simp)⟩
  · exact ⟨h, fun _ h => h, .kept f⟩

theorem separateFrom_spec (hand : ∀ fs, Q (and fs) → ∀ f ∈ fs, Q f)
    (hor : ∀ fs, Q (or fs) → ∀ f ∈ fs, Q f) {f : Formula} (hf : Q f) (h : Kept Q guesses sub) :
    SeparatesInto Q guesses sub f (separateFrom guesses sub f) := by
  have all {fs : List Formula} {sub : Table Formula} (h : Kept Q guesses sub)
      (ih : ∀ f ∈ fs, ∀ sub, Kept Q guesses sub →
        SeparatesInto Q guesses sub f (separateFrom guesses sub f)) :
      Kept Q guesses (separateAll guesses sub fs).2 ∧ Within sub (separateAll guesses sub fs).2 ∧
        List.Forall₂ (Separates guesses (separateAll guesses sub fs).2) fs
          (separateAll guesses sub fs).1 := by
    induction fs generalizing sub with
    | nil => exact ⟨h, fun _ h => h, .nil⟩
    | cons f fs ih' =>
      have first := ih f (by simp) sub h
      obtain ⟨kept, within, later⟩ := ih' first.kept fun f hf => ih f (by simp [hf])
      rw [separateAll]
      exact ⟨kept, fun name hn => within name (first.within name hn),
        .cons (first.separates.mono within) later⟩
  induction f using Formula.induct generalizing sub with
  | and fs ih =>
    obtain ⟨kept, within, separates⟩ := all h fun f hm sub h => ih f hm (hand fs hf f hm) h
    rw [separateFrom]
    exact ⟨kept, within, .and separates⟩
  | or fs ih =>
    obtain ⟨kept, within, separates⟩ := all h fun f hm sub h => ih f hm (hor fs hf f hm) h
    rw [separateFrom]
    exact ⟨kept, within, .or separates⟩
  | eventually w f | untl w l r =>
    rw [separateFrom]
    exact separateOne_spec hf rfl h
  | _ => exact ⟨h, fun _ h => h, .kept _⟩

/-! ## Guessed instants -/

/-- An existential formula is satisfied by an instant. -/
def Met (σ : Trace) (x : ℝ) : Formula → ℝ → Prop
  | eventually w f, t => w.Covers t x ∧ x ≤ σ.length ∧ f.Holds σ x
  | untl w l r, t => w.Covers t x ∧ x ≤ σ.length ∧ r.Holds σ x ∧
      ∀ v, t ≤ v → v < x → l.Holds σ v
  | _, _ => False

theorem holds_iff_met {σ : Trace} {f : Formula} (hf : f.isExistential = true) {t : ℝ} :
    f.Holds σ t ↔ ∃ x, f.Met σ x t := by
  cases f <;> first | exact Iff.rfl | cases hf

end Formula

/-- A trace on which a witness says that the formula it stands for is satisfied by the instant that
was guessed for it. -/
def Trace.guessed (σ : Trace) (sub : Table Formula) (x : Var → ℝ) : Trace :=
  { σ with witness := fun w t => ∃ f, sub.get? w.name = some f ∧ f.Met σ (x w) t }

namespace Formula

variable {A : Term → Prop} {P : Var → Prop} {R : String → Prop} {Q : Formula → Prop}
  {b : Timeline} {σ : Trace} {x : Var → ℝ} {t : ℝ} {guesses : Guesses} {sub : Table Formula}

theorem Met.inside {f : Formula} {x : ℝ} (h : f.Met σ x t) (hf : f.Formed A R) (h0 : 0 ≤ t) :
    0 ≤ x ∧ x ≤ σ.length := by
  cases f with
  | eventually w f => exact ⟨h.1.nonneg hf.1.nonneg h0, h.2.1⟩
  | untl w l r => exact ⟨h.1.nonneg hf.1.nonneg h0, h.2.1⟩
  | _ => exact h.elim

theorem forall_of_forall₂ {fs gs : List Formula} {A B : Formula → Prop}
    (h : List.Forall₂ (fun f g => A g → B f) fs gs) (hA : ∀ g ∈ gs, A g) : ∀ f ∈ fs, B f := by
  induction h with
  | nil => simp
  | cons hfg _ ih =>
    simp only [List.mem_cons, forall_eq_or_imp] at hA ⊢
    exact ⟨hfg hA.1, ih hA.2⟩

theorem exists_of_forall₂ {fs gs : List Formula} {A B : Formula → Prop}
    (h : List.Forall₂ (fun f g => A g → B f) fs gs) (hA : ∃ g ∈ gs, A g) : ∃ f ∈ fs, B f := by
  induction h with
  | nil => simp at hA
  | cons hfg _ ih =>
    simp only [List.mem_cons, exists_eq_or_imp] at hA ⊢
    exact hA.imp hfg ih

theorem Formed.holds_guessed {f : Formula} (hf : f.Formed A R) (h0 : 0 ≤ t)
    (ht : t ≤ σ.length) : f.Holds (σ.guessed sub x) t ↔ f.Holds σ t := by
  have agrees : f.Every (Agrees (σ.guessed sub x) σ) fun w => 0 ≤ w.lower :=
    hf.every (fun _ => trivial) (fun _ _ _ _ _ => Iff.rfl) fun _ _ _ _ _ => Iff.rfl
  have hlen : (σ.guessed sub x).length = σ.length := rfl
  exact holds_congr hlen agrees h0 ht

/-- Two subformulas with one witness have one text. -/
theorem text_of_witness {cs : List Term} (numbered : Numbered b (guesses, cs))
    (kept : Kept Q guesses sub) {f f' : Formula} {w : Var} (hw : guesses.get? f.text = some w)
    (hf' : sub.get? w.name = some f') : Q f' ∧ f.text = f'.text := by
  obtain ⟨hQ, -, w', hw', hname⟩ := kept _ _ hf'
  obtain ⟨i, -, rfl⟩ := numbered.witness _ _ hw
  obtain ⟨j, -, rfl⟩ := numbered.witness _ _ hw'
  have hij : Symbol.witness j = Symbol.witness i := by
    rw [Symbol.witness, Symbol.witness] at *
    simpa using hname
  rw [hij] at hw'
  exact ⟨hQ, numbered.unique _ _ _ hw hw'⟩

/-- A property of formulas over constraints that is inherited by the parts of conjunctions and
disjunctions. -/
structure Inherited (A : Term → Prop) (R : String → Prop) (Q : Formula → Prop) : Prop where
  formed : ∀ f, Q f → f.Formed A R
  and : ∀ fs, Q (and fs) → ∀ f ∈ fs, Q f
  or : ∀ fs, Q (or fs) → ∀ f ∈ fs, Q f

theorem inherited_faithful : Inherited (Term.BuiltOver P) R (Faithful P R σ) where
  formed _ h := h.formed
  and _ h f hf := ⟨formedAll_iff.1 h.formed.2 f hf, everyAll_iff.1 h.keeps f hf⟩
  or _ h f hf := ⟨formedAll_iff.1 h.formed.2 f hf, everyAll_iff.1 h.keeps f hf⟩

/-- If a separated formula holds, so does the formula. -/
theorem holds_of_separates (inherited : Inherited A R Q) (alike : Alike Q σ) {cs : List Term}
    (numbered : Numbered b (guesses, cs)) (kept : Kept Q guesses sub) (h0 : 0 ≤ t)
    (ht : t ≤ σ.length) {f top : Formula} (hf : Q f) (hs : Separates guesses sub f top)
    (h : top.Holds (σ.guessed sub x) t) : f.Holds σ t := by
  have parts {fs gs : List Formula} (hfs : ∀ f ∈ fs, Q f)
      (ih : List.Forall₂ (fun f g => Q f → g.Holds (σ.guessed sub x) t → f.Holds σ t) fs gs) :
      List.Forall₂ (fun f g => g.Holds (σ.guessed sub x) t → f.Holds σ t) fs gs :=
    ((List.forall₂_and_left ..).2 ⟨hfs, ih⟩).imp fun _ _ h => h.2 h.1
  refine Separates.induct (motive := fun f g => Q f →
    g.Holds (σ.guessed sub x) t → f.Holds σ t) ?_ ?_ ?_ ?_ hs hf h
  · exact fun f hf => ((inherited.formed f hf).holds_guessed h0 ht).1
  · rintro f w hw - hf ⟨f', hf', met⟩
    have holds : f'.Holds σ t := (holds_iff_met (kept _ _ hf').2.1).2 ⟨_, met⟩
    obtain ⟨hQ, htext⟩ := text_of_witness numbered kept hw hf'
    exact (alike f f' hf hQ htext t h0 ht).2 holds
  · intro fs gs ih hf h
    rw [holds_and] at h ⊢
    exact forall_of_forall₂ (parts (inherited.and fs hf) ih) h
  · intro fs gs ih hf h
    rw [holds_or] at h ⊢
    exact exists_of_forall₂ (parts (inherited.or fs hf) ih) h

/-- Instants can be guessed inside a trace that satisfy every subformula that holds. -/
theorem exists_guess (inherited : Inherited A R Q) (kept : Kept Q guesses sub) (h0 : 0 ≤ t)
    (hlen : 0 ≤ σ.length) :
    ∃ x : Var → ℝ, (∀ w, 0 ≤ x w ∧ x w ≤ σ.length) ∧
      ∀ w f, sub.get? w.name = some f → f.Holds σ t → f.Met σ (x w) t := by
  have each (w : Var) : ∃ x : ℝ, (0 ≤ x ∧ x ≤ σ.length) ∧
      ∀ f, sub.get? w.name = some f → f.Holds σ t → f.Met σ x t := by
    cases hf : sub.get? w.name with
    | none => exact ⟨0, ⟨le_rfl, hlen⟩, fun f hf => by cases hf⟩
    | some f =>
      obtain ⟨hQ, hex, -⟩ := kept _ _ hf
      by_cases holds : f.Holds σ t
      · obtain ⟨x, met⟩ := (holds_iff_met hex).1 holds
        refine ⟨x, met.inside (inherited.formed f hQ) h0, fun f' hf' _ => ?_⟩
        cases hf'
        exact met
      · refine ⟨0, ⟨le_rfl, hlen⟩, fun f' hf' holds' => ?_⟩
        cases hf'
        exact absurd holds' holds
  choose x inside met using each
  exact ⟨x, inside, met⟩

/-- If a formula holds and the guessed instants satisfy what they can, the separated formula
holds. -/
theorem Separates.holds (inherited : Inherited A R Q) (alike : Alike Q σ) {cs : List Term}
    (numbered : Numbered b (guesses, cs)) (kept : Kept Q guesses sub) (h0 : 0 ≤ t)
    (ht : t ≤ σ.length)
    (met : ∀ (i : Nat) f, sub.get? (Symbol.witness i).name = some f → f.Holds σ t →
      f.Met σ (x (Symbol.witness i)) t) {f top : Formula} (hf : Q f)
    (hs : Separates guesses sub f top) (h : f.Holds σ t) : top.Holds (σ.guessed sub x) t := by
  have parts {fs gs : List Formula} (hfs : ∀ f ∈ fs, Q f)
      (ih : List.Forall₂ (fun f g => Q f → f.Holds σ t → g.Holds (σ.guessed sub x) t) fs gs) :
      List.Forall₂ (fun g f => f.Holds σ t → g.Holds (σ.guessed sub x) t) gs fs :=
    (((List.forall₂_and_left ..).2 ⟨hfs, ih⟩).imp fun _ _ h => h.2 h.1).flip
  refine Separates.induct (motive := fun f g => Q f →
    f.Holds σ t → g.Holds (σ.guessed sub x) t) ?_ ?_ ?_ ?_ hs hf h
  · exact fun f hf => ((inherited.formed f hf).holds_guessed h0 ht).2
  · intro f w hw hsub hf h
    obtain ⟨f', hf'⟩ := Option.isSome_iff_exists.1 hsub
    obtain ⟨hQ, htext⟩ := text_of_witness numbered kept hw hf'
    obtain ⟨i, -, rfl⟩ := numbered.witness _ _ hw
    exact ⟨f', hf', met i f' hf' ((alike f f' hf hQ htext t h0 ht).1 h)⟩
  · intro fs gs ih hf h
    rw [holds_and] at h ⊢
    exact forall_of_forall₂ (parts (inherited.and fs hf) ih) h
  · intro fs gs ih hf h
    rw [holds_or] at h ⊢
    exact exists_of_forall₂ (parts (inherited.or fs hf) ih) h

end Formula

/-! ## The value of a separated formula -/

/-- A witness is read where the environment puts it, whatever instants are quantified over. -/
theorem current_witness (i n : Nat) : Current n (.var (Symbol.witness i)) :=
  ⟨Term.amount_var rfl, fun _ _ => Term.mentions_var_of_ne fun h => by cases congrArg Var.role h⟩

theorem Near.amount_witness {ρ ρ' : Env} (h : Near ρ ρ') (i : Nat) :
    (Term.var (Symbol.witness i)).amount ρ' = (Term.var (Symbol.witness i)).amount ρ := by
  have hv (n : Nat) : Symbol.witness i ≠ Symbol.instant n := by
    intro h
    cases congrArg Var.role h
  simp only [Term.amount, Term.eval, h.now _ hv]

namespace Formula

open Term Valuing

variable {bv : BaseValuation} {N : Nat} {ρ : Env} {σ : Trace} {sub : Table Formula}

/-- The value of a witness says that its subformula is satisfied by the guessed instant. -/
theorem answers_witness (hbv : bv.Describes N ρ σ) {i depth : Nat} {f : Formula}
    (hf : sub.get? (Symbol.witness i).name = some f) (hex : f.isExistential = true)
    (tabulated : f.Every (Tabulated bv fun _ => False) fun w => 0 ≤ w.lower) :
    Answers ρ (σ.guessed sub fun w => (var w).amount ρ) (.witness (Symbol.witness i))
      (witnessValue bv sub (depth + 1) (Symbol.witness i)) := by
  intro t n ht
  have hw := current_witness i
  have hend {ρ' : Env} (h : Near ρ ρ') : (Timeline.stop N).amount ρ' = σ.length := by
    rw [h.amount_stop, hbv.length]
  have inner {f : Formula} (hf : f.Every (Tabulated bv fun _ => False) fun w => 0 ≤ w.lower) :
      Answers ρ σ f (value bv (witnessValue bv sub depth) f) :=
    value_spec hbv (fun _ h => h.elim) hf
  have atWitness {f : Formula} {u : Term} (values : f.Values ρ σ (var (Symbol.witness i)) u)
      {ρ' : Env} (h : Near ρ ρ') (h0 : 0 ≤ (var (Symbol.witness i)).amount ρ)
      (hle : (var (Symbol.witness i)).amount ρ ≤ σ.length) :
      u.Holds ρ' ↔ f.Holds σ ((var (Symbol.witness i)).amount ρ) := by
    have holds := values.holds ρ' h
    rw [h.amount_witness i] at holds
    exact holds h0 hle
  cases f with
  | eventually w f =>
    obtain ⟨body, n₁, hbody, h1, hb⟩ := inner tabulated.2 _ n (hw n)
    obtain ⟨win, hwin, cwin, vwin⟩ := windowAt_spec (N := N) w ht.amount (hw n).amount
    have both : ∀ a ∈ [win, body], a.Constraint noFlow := by simpa using ⟨cwin, hb.constraint⟩
    rw [← hbv.timeline] at hwin
    refine ⟨_, n₁, (witnessValue_eventually_eq_ok hf).2 ⟨body, win, hbody, hwin, rfl⟩, h1,
      constraint_mkAnd both, fun ρ' h h0 hle => ?_⟩
    rw [holds_mkAnd]
    simp only [List.mem_cons, List.not_mem_nil, or_false, forall_eq_or_imp, forall_eq,
      vwin ρ' h.typed, h.amount_witness i, hend h, Formula.Holds, Trace.guessed, hf,
      Option.some.injEq, exists_eq_left', Met, and_assoc]
    exact and_congr_right fun hcov => and_congr_right fun hle =>
      atWitness hb h (hcov.nonneg tabulated.1 h0) hle
  | untl w l r =>
    obtain ⟨right, n₁, hright, h1, hr⟩ := inner tabulated.2.2 _ n (hw n)
    obtain ⟨left, n₂, hleft, h2, hl⟩ := inner tabulated.2.1 _ _ (Current.instant n₁)
    obtain ⟨win, hwin, cwin, vwin⟩ := windowAt_spec (N := N) w ht.amount (hw n).amount
    obtain ⟨cheld, vheld⟩ := heldUntil_spec (ht.mono h1) (hw n₁) hl
    have all : ∀ a ∈ [win, right, mkAll (Symbol.instant n₁) (mkImplies
        (between t (var (Symbol.instant n₁)) (var (Symbol.witness i))) left)],
        a.Constraint noFlow := by
      simpa using ⟨cwin, hr.constraint, cheld⟩
    rw [← hbv.timeline] at hwin
    refine ⟨_, n₂, (witnessValue_untl_eq_ok hf).2
      ⟨right, n₁, left, win, hright, hleft, hwin, rfl⟩, by omega, constraint_mkAnd all,
      fun ρ' h h0 hle => ?_⟩
    rw [holds_mkAnd]
    simp only [List.mem_cons, List.not_mem_nil, or_false, forall_eq_or_imp, forall_eq,
      vwin ρ' h.typed, h.amount_witness i, hend h, Formula.Holds, Trace.guessed, hf,
      Option.some.injEq, exists_eq_left', Met, and_assoc]
    refine and_congr_right fun hcov => and_congr_right fun hle =>
      and_congr (atWitness hr h (hcov.nonneg tabulated.1 h0) hle) ?_
    have held := vheld ρ' h h0
    rw [h.amount_witness i] at held
    exact held hle
  | _ => cases hex

/-- What is needed to value a formula is there for the separated formula, too. -/
theorem Separates.tabulated {guesses : Guesses} {cs : List Term} {b : Timeline}
    (numbered : Numbered b (guesses, cs)) {f top : Formula} (hs : Separates guesses sub f top)
    (hf : f.Every (Tabulated bv fun _ => False) fun w => 0 ≤ w.lower) :
    top.Every (Tabulated bv fun w => ∃ i : Nat, w = Symbol.witness i ∧
      (sub.get? w.name).isSome = true) fun w => 0 ≤ w.lower := by
  have parts {fs gs : List Formula} {A B : Formula → Prop}
      (ih : List.Forall₂ (fun f g => A f → B g) fs gs) (hfs : ∀ f ∈ fs, A f) : ∀ g ∈ gs, B g :=
    forall_of_forall₂ ih.flip hfs
  refine Separates.induct (motive := fun f g => f.Every (Tabulated bv fun _ => False)
    (fun w => 0 ≤ w.lower) → g.Every (Tabulated bv fun w => ∃ i : Nat, w = Symbol.witness i ∧
      (sub.get? w.name).isSome = true) fun w => 0 ≤ w.lower) ?_ ?_ ?_ ?_ hs hf
  · intro f hf
    refine hf.mono (fun g hg => ?_) fun _ h => h
    cases g <;> first | exact hg | exact hg.elim
  · intro f w hw hsub _
    obtain ⟨i, -, rfl⟩ := numbered.witness _ _ hw
    exact ⟨i, rfl, hsub⟩
  · intro fs gs ih hf
    rw [Every, everyAll_iff] at hf ⊢
    exact parts ih hf
  · intro fs gs ih hf
    rw [Every, everyAll_iff] at hf ⊢
    exact parts ih hf

/-- The value of a separated formula says that it holds with the guessed instants. -/
theorem answers_separated (hbv : bv.Describes N ρ σ) {guesses : Guesses} {cs : List Term}
    {b : Timeline} (numbered : Numbered b (guesses, cs))
    (kept : Kept (fun f => f.Every (Tabulated bv fun _ => False) fun w => 0 ≤ w.lower) guesses sub)
    {f top : Formula} (hs : Separates guesses sub f top)
    (hf : f.Every (Tabulated bv fun _ => False) fun w => 0 ≤ w.lower) :
    Answers ρ (σ.guessed sub fun w => (var w).amount ρ) top (Separated.valueAt ⟨top, sub⟩ bv) := by
  have describes : bv.Describes N ρ (σ.guessed sub fun w => (var w).amount ρ) :=
    ⟨hbv.timeline, hbv.length, hbv.covered, hbv.rows, hbv.prop, hbv.atom⟩
  refine value_spec describes ?_ (hs.tabulated numbered hf)
  rintro w ⟨i, rfl, hsub⟩
  obtain ⟨g, hg⟩ := Option.isSome_iff_exists.1 hsub
  obtain ⟨tabulated, hex, -⟩ := kept _ _ hg
  obtain ⟨depth, hdepth⟩ : ∃ depth, sub.length = depth + 1 := by
    have := List.length_pos_of_mem (Table.mem_of_get? hg)
    exact ⟨sub.length - 1, by omega⟩
  simp only [hdepth]
  exact answers_witness hbv hg hex tabulated

end Formula

end HybridCheck
