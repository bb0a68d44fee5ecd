import HybridCheck.Failure
import HybridCheck.Table
import Mathlib.Data.List.Forall2
import Mathlib.Tactic.Tauto

/-!
# Tables and attempts

Changing the values of a table goes along with looking up, storing and merging, and what is found
in a table is one of its entries. None of this needs the names to be distinct; where they are, a
merged table is read off its two parts.

A sequence of attempts succeeds if every one of them does, and only then.
-/

namespace HybridCheck.Table

variable {α β : Type}

@[simp] theorem get?_mapValues (f : α → β) (t : Table α) (name : String) :
    get? (mapValues f t) name = (get? t name).map f := by
  induction t with
  | nil => rfl
  | cons e t ih =>
    obtain ⟨k, v⟩ := e
    by_cases h : k = name
    · simp [mapValues, get?, h]
    · simpa [mapValues, get?, h] using ih

theorem get?_map (g : String × α → β) (t : Table α) (name : String) :
    get? (t.map fun e => (e.1, g e)) name = (get? t name).map fun v => g (name, v) := by
  induction t with
  | nil => rfl
  | cons e t ih =>
    obtain ⟨k, v⟩ := e
    by_cases h : k = name
    · simp [get?, h]
    · simpa [get?, h] using ih

theorem mapValues_put (f : α → β) (name : String) (v : α) (t : Table α) :
    mapValues f (put name v t) = put name (f v) (mapValues f t) := by
  induction t with
  | nil => rfl
  | cons e t ih =>
    obtain ⟨k, w⟩ := e
    simp only [mapValues, put, List.map_cons] at ih ⊢
    split
    · rfl
    · split
      · rfl
      · rw [List.map_cons, ih]

theorem mapValues_putAll (f : α → β) (t : Table α) (entries : List (String × α)) :
    mapValues f (putAll t entries) = putAll (mapValues f t) (mapValues f entries) := by
  induction entries generalizing t with
  | nil => rfl
  | cons e entries ih =>
    simp only [putAll, mapValues, List.map_cons, List.foldl_cons] at ih ⊢
    rw [ih, ← mapValues, mapValues_put]
    rfl

theorem mapValues_merge (f : α → β) (t u : Table α) :
    mapValues f (merge t u) = merge (mapValues f t) (mapValues f u) :=
  mapValues_putAll f t u

theorem mapValues_congr {f g : α → β} {t : Table α} (h : ∀ e ∈ t, f e.2 = g e.2) :
    mapValues f t = mapValues g t :=
  List.map_congr_left fun e he => by rw [h e he]

theorem mem_of_get? {t : Table α} {name : String} {v : α} (h : get? t name = some v) :
    (name, v) ∈ t := by
  induction t with
  | nil => cases h
  | cons e t ih =>
    obtain ⟨k, w⟩ := e
    rw [get?] at h
    split at h
    · next hk => cases h; simp [hk]
    · exact List.mem_cons_of_mem _ (ih h)

theorem mem_of_mem_put {t : Table α} {name : String} {v : α} {e : String × α}
    (h : e ∈ put name v t) : e = (name, v) ∨ e ∈ t := by
  induction t with
  | nil => simpa [put] using h
  | cons e' t ih =>
    rw [put] at h
    split at h
    · simp only [List.mem_cons] at h ⊢
      tauto
    · split at h
      · simpa using h
      · simp only [List.mem_cons] at h ⊢
        tauto

theorem mem_of_mem_putAll {t : Table α} {entries : List (String × α)} {e : String × α}
    (h : e ∈ putAll t entries) : e ∈ entries ∨ e ∈ t := by
  induction entries generalizing t with
  | nil => exact Or.inr h
  | cons e' entries ih =>
    rw [putAll, List.foldl_cons, ← putAll] at h
    rcases ih h with h | h
    · exact Or.inl (List.mem_cons_of_mem _ h)
    · rcases mem_of_mem_put h with h | h
      · exact Or.inl (List.mem_cons.2 (Or.inl h))
      · exact Or.inr h

theorem exists_get?_of_mem {t : Table α} {e : String × α} (h : e ∈ t) :
    ∃ v, get? t e.1 = some v := by
  induction t with
  | nil => cases h
  | cons e' t ih =>
    by_cases hk : e'.1 = e.1
    · exact ⟨e'.2, by rw [get?, if_pos hk]⟩
    · rcases List.mem_cons.1 h with rfl | h
      · exact absurd rfl hk
      · obtain ⟨v, hv⟩ := ih h
        exact ⟨v, by rw [get?, if_neg hk, hv]⟩

theorem exists_get?_of_mem_names {t : Table α} {name : String} (h : name ∈ names t) :
    ∃ v, get? t name = some v := by
  obtain ⟨e, he, rfl⟩ := List.mem_map.1 h
  exact exists_get?_of_mem he

theorem get?_eq_none {t : Table α} {name : String} : get? t name = none ↔ name ∉ names t := by
  constructor
  · intro h hm
    obtain ⟨v, hv⟩ := exists_get?_of_mem_names hm
    rw [h] at hv
    cases hv
  · intro h
    cases hg : get? t name with
    | none => rfl
    | some v => exact absurd (List.mem_map.2 ⟨_, mem_of_get? hg, rfl⟩) h

theorem get?_putAll_of_notMem {t : Table α} {entries : List (String × α)} {name : String}
    (h : name ∉ names entries) : get? (putAll t entries) name = get? t name := by
  induction entries generalizing t with
  | nil => rfl
  | cons e entries ih =>
    simp only [names, List.map_cons, List.mem_cons, not_or] at h
    rw [putAll, List.foldl_cons, ← putAll, ih h.2, get?_put_of_ne _ _ (Ne.symm h.1)]

/-- What several entries stored one after the other leave under one of their names is one of
them. -/
theorem get?_putAll_of_mem {t : Table α} {entries : List (String × α)} {name : String}
    (h : name ∈ names entries) : ∃ v, (name, v) ∈ entries ∧
      get? (putAll t entries) name = some v := by
  induction entries generalizing t with
  | nil => cases h
  | cons e entries ih =>
    by_cases hm : name ∈ names entries
    · obtain ⟨v, hv, hg⟩ := ih (t := t.put e.1 e.2) hm
      exact ⟨v, List.mem_cons_of_mem _ hv, hg⟩
    · have he : name = e.1 := (List.mem_cons.1 h).resolve_right hm
      refine ⟨e.2, by rw [he]; exact List.mem_cons_self .., ?_⟩
      rw [putAll, List.foldl_cons, ← putAll, get?_putAll_of_notMem hm, he, get?_put_self]

/-- What a merged table holds is in one of its parts. -/
theorem mem_of_get?_merge {t u : Table α} {name : String} {v : α}
    (h : get? (merge t u) name = some v) : (name, v) ∈ t ∨ (name, v) ∈ u := by
  by_cases hm : name ∈ names u
  · obtain ⟨w, hw, hg⟩ := get?_putAll_of_mem (t := t) hm
    rw [merge, hg] at h
    cases h
    exact Or.inr hw
  · rw [merge, get?_putAll_of_notMem hm] at h
    exact Or.inl (mem_of_get? h)

theorem isSome_get?_merge {t u : Table α} {name : String} :
    (get? (merge t u) name).isSome = true ↔ name ∈ names t ∨ name ∈ names u := by
  by_cases hm : name ∈ names u
  · obtain ⟨w, hw, hg⟩ := get?_putAll_of_mem (t := t) hm
    simp [merge, hg, hm]
  · rw [merge, get?_putAll_of_notMem hm, or_iff_left hm]
    by_cases ht : name ∈ names t
    · obtain ⟨v, hv⟩ := exists_get?_of_mem_names ht
      simp [hv, ht]
    · simp [get?_eq_none.2 ht, ht]

theorem mem_names_merge {t u : Table α} {name : String} :
    name ∈ names (merge t u) ↔ name ∈ names t ∨ name ∈ names u := by
  rw [← isSome_get?_merge, Option.isSome_iff_ne_none, ne_eq, get?_eq_none, not_not]

/-- Tables with the same names are empty together. -/
theorem isEmpty_eq_of_names {t u : Table α} (h : ∀ name, name ∈ names t ↔ name ∈ names u) :
    t.isEmpty = u.isEmpty := by
  rcases t with _ | ⟨e, t⟩ <;> rcases u with _ | ⟨e', u⟩
  · rfl
  · simpa [names] using h e'.1
  · simpa [names] using h e.1
  · rfl

/-- Changing the entries of the second table changes what a merged table holds under their names,
and nothing else. -/
theorem get?_merge_map (t u : Table α) (g : String × α → α) (name : String) :
    (get? (merge t (u.map fun e => (e.1, g e))) name = get? (merge t u) name ∧
        name ∉ names u) ∨
      ∃ v, (name, v) ∈ u ∧ get? (merge t u) name = some v ∧
        get? (merge t (u.map fun e => (e.1, g e))) name = some (g (name, v)) := by
  have hn : names (u.map fun e => (e.1, g e)) = names u := by simp [names]
  by_cases hm : name ∈ names u
  · right
    have both (acc acc' : Table α) : ∃ v, (name, v) ∈ u ∧ get? (putAll acc u) name = some v ∧
        get? (putAll acc' (u.map fun e => (e.1, g e))) name = some (g (name, v)) := by
      clear hn
      induction u generalizing acc acc' with
      | nil => cases hm
      | cons e u ih =>
        simp only [List.map_cons, putAll, List.foldl_cons]
        by_cases hu : name ∈ names u
        · obtain ⟨v, hv, h, h'⟩ := ih hu (acc.put e.1 e.2) (acc'.put e.1 (g e))
          exact ⟨v, List.mem_cons_of_mem _ hv, h, h'⟩
        · obtain rfl : name = e.1 := (List.mem_cons.1 hm).resolve_right hu
          have hu' : e.1 ∉ names (u.map fun e => (e.1, g e)) := by simpa [names] using hu
          refine ⟨e.2, List.mem_cons_self .., ?_, ?_⟩
          · rw [← putAll, get?_putAll_of_notMem hu, get?_put_self]
          · rw [← putAll, get?_putAll_of_notMem hu', get?_put_self]
    exact both t t
  · left
    rw [merge, merge, get?_putAll_of_notMem (hn ▸ hm), get?_putAll_of_notMem hm]
    exact ⟨rfl, hm⟩

section Distinct

variable {t u : Table α}

/-- Where names are distinct, every entry is found. -/
theorem get?_of_mem (hu : (names u).Nodup) {name : String} {v : α} (h : (name, v) ∈ u) :
    get? u name = some v := by
  induction u with
  | nil => cases h
  | cons e u ih =>
    simp only [names, List.map_cons, List.nodup_cons] at hu
    rcases List.mem_cons.1 h with rfl | h
    · simp [get?]
    · have hne : e.1 ≠ name := by
        rintro rfl
        exact hu.1 (List.mem_map.2 ⟨_, h, rfl⟩)
      rw [get?, if_neg hne, ih hu.2 h]

theorem get?_putAll (hu : (names u).Nodup) (name : String) :
    get? (putAll t u) name = (get? u name).or (get? t name) := by
  by_cases hm : name ∈ names u
  · obtain ⟨v, hv, hg⟩ := get?_putAll_of_mem (t := t) hm
    rw [hg, get?_of_mem hu hv]
    rfl
  · rw [get?_putAll_of_notMem hm, get?_eq_none.2 hm]
    rfl

theorem get?_merge (hu : (names u).Nodup) (name : String) :
    get? (merge t u) name = (get? u name).or (get? t name) :=
  get?_putAll hu name

theorem get?_ofEntries (hu : (names u).Nodup) (name : String) :
    get? (ofEntries u) name = get? u name := by
  rw [ofEntries, get?_putAll hu]
  simp

end Distinct

end HybridCheck.Table

namespace HybridCheck.Attempt

variable {α β : Type}

@[simp] theorem bind_ok (a : α) (f : α → Attempt β) : (.ok a >>= f : Attempt β) = f a := rfl

@[simp] theorem pure_eq_ok (a : α) : (pure a : Attempt α) = .ok a := rfl

theorem bind_eq_ok {x : Attempt α} {f : α → Attempt β} {b : β} :
    (x >>= f) = .ok b ↔ ∃ a, x = .ok a ∧ f a = .ok b := by
  cases x with
  | error e =>
    constructor
    · intro h
      cases h
    · rintro ⟨_, h, _⟩
      cases h
  | ok a =>
    constructor
    · exact fun h => ⟨a, rfl, h⟩
    · rintro ⟨_, h, h'⟩
      cases h
      exact h'

theorem bind_eq_error {x : Attempt α} {f : α → Attempt β} {e : Failure} :
    (x >>= f) = .error e ↔ x = .error e ∨ ∃ a, x = .ok a ∧ f a = .error e := by
  cases x with
  | error e' =>
    constructor
    · intro h
      cases h
      exact Or.inl rfl
    · rintro (h | ⟨_, h, _⟩)
      · cases h
        rfl
      · cases h
  | ok a =>
    constructor
    · exact fun h => Or.inr ⟨a, rfl, h⟩
    · rintro (h | ⟨_, h, h'⟩)
      · cases h
      · cases h
        exact h'

theorem within_eq_ok {stage : Failure → Failure} {x : Attempt α} {a : α} :
    within stage x = .ok a ↔ x = .ok a := by
  cases x with
  | ok b => exact Iff.rfl
  | error e => cases e <;> exact ⟨nofun, nofun⟩

theorem map_eq_ok {x : Attempt α} {f : α → β} {b : β} :
    x.map f = .ok b ↔ ∃ a, x = .ok a ∧ f a = b := by
  cases x with
  | error e => simp [Except.map]
  | ok a => simp [Except.map]

theorem mapM_eq_map {f : α → Attempt β} {g : α → β} {as : List α}
    (h : ∀ a ∈ as, f a = .ok (g a)) : as.mapM f = .ok (as.map g) := by
  induction as with
  | nil => rfl
  | cons a as ih =>
    rw [List.mapM_cons, h a (by simp), ih fun b hb => h b (by simp [hb])]
    rfl

/-- What comes of each element of a list on which a sequence of attempts succeeds. -/
theorem mapM_eq_ok {f : α → Attempt β} {as : List α} {bs : List β} :
    as.mapM f = .ok bs ↔ List.Forall₂ (fun a b => f a = .ok b) as bs := by
  induction as generalizing bs with
  | nil =>
    constructor
    · intro h
      cases h
      exact .nil
    · intro h
      cases h
      rfl
  | cons a as ih =>
    rw [List.mapM_cons, bind_eq_ok]
    constructor
    · rintro ⟨b, hb, h⟩
      obtain ⟨bs', hbs, h⟩ := bind_eq_ok.1 h
      cases h
      exact .cons hb (ih.1 hbs)
    · intro h
      cases h with
      | cons hb hbs => exact ⟨_, hb, by rw [ih.2 hbs]; rfl⟩

theorem exists_mapM {f : α → Attempt β} {P : α → β → Prop} {l : List α}
    (h : ∀ a ∈ l, ∃ b, f a = .ok b ∧ P a b) : ∃ bs, l.mapM f = .ok bs ∧ List.Forall₂ P l bs := by
  induction l with
  | nil => exact ⟨[], rfl, .nil⟩
  | cons a l ih =>
    obtain ⟨b, hb, hab⟩ := h a (by simp)
    obtain ⟨bs, hbs, hall⟩ := ih fun a ha => h a (by simp [ha])
    refine ⟨b :: bs, ?_, .cons hab hall⟩
    rw [List.mapM_cons, hb, hbs]
    rfl

theorem exists_collect {γ : Type} {f : α → Attempt β} {g : List β → γ} {P : α → β → Prop}
    {Q : γ → Prop} {l : List α} (h : ∀ a ∈ l, ∃ b, f a = .ok b ∧ P a b)
    (hg : ∀ bs, List.Forall₂ P l bs → Q (g bs)) :
    ∃ c, (do return g (← l.mapM f)) = Except.ok c ∧ Q c := by
  obtain ⟨bs, hbs, all⟩ := exists_mapM h
  exact ⟨g bs, by rw [hbs]; rfl, hg bs all⟩

theorem mem_of_mapM {f : α → Attempt β} {as : List α} {bs : List β} (h : as.mapM f = .ok bs)
    {b : β} (hb : b ∈ bs) : ∃ a ∈ as, f a = .ok b := by
  have all := mapM_eq_ok.1 h
  clear h
  induction all with
  | nil => cases hb
  | cons hab _ ih =>
    rcases List.mem_cons.1 hb with rfl | hb
    · exact ⟨_, by simp, hab⟩
    · obtain ⟨a, ha, hab⟩ := ih hb
      exact ⟨a, by simp [ha], hab⟩

theorem exists_mapM_all {f : α → Attempt β} {P : β → Prop} {as : List α}
    (h : ∀ a ∈ as, ∃ b, f a = .ok b ∧ P b) : ∃ bs, as.mapM f = .ok bs ∧ ∀ b ∈ bs, P b := by
  obtain ⟨bs, hbs, -⟩ := exists_mapM h
  refine ⟨bs, hbs, fun b hb => ?_⟩
  obtain ⟨a, ha, hab⟩ := mem_of_mapM hbs hb
  obtain ⟨b', hb', holds⟩ := h a ha
  cases hab.symm.trans hb'
  exact holds

theorem exists_collect_all {γ : Type} {f : α → Attempt β} {g : List β → γ} {P : β → Prop}
    {Q : γ → Prop} {l : List α} (h : ∀ a ∈ l, ∃ b, f a = .ok b ∧ P b)
    (hg : ∀ bs, (∀ b ∈ bs, P b) → Q (g bs)) :
    ∃ c, (do return g (← l.mapM f)) = Except.ok c ∧ Q c := by
  obtain ⟨bs, hbs, all⟩ := exists_mapM_all h
  exact ⟨g bs, by rw [hbs]; rfl, hg bs all⟩

theorem exists_of_mapM {f : α → Attempt β} {as : List α} {bs : List β} (h : as.mapM f = .ok bs)
    {a : α} (ha : a ∈ as) : ∃ b ∈ bs, f a = .ok b := by
  have all := mapM_eq_ok.1 h
  clear h
  induction all with
  | nil => cases ha
  | cons hab _ ih =>
    rcases List.mem_cons.1 ha with rfl | ha
    · exact ⟨_, by simp, hab⟩
    · obtain ⟨b, hb, hab⟩ := ih ha
      exact ⟨b, by simp [hb], hab⟩

end HybridCheck.Attempt
