import HybridCheck.Search.Basic
import Mathlib

/-!
# Every interleaving of a pool of workers

A pool explores bounds with several workers. A dispatcher hands out the bounds in order; a worker
that has taken a bound looks whether it was given up, explores it if not, and delivers what it has
to a channel with room for one delivery per bound. A collector takes deliveries out of the channel.
When it meets a decisive result below the cutoff, it moves the cutoff there and gives up all larger
bounds, one after the other, while the workers go on. What exploring a bound yields is determined as
long as the bound is not given up, and can be anything once it is.

The steps of the pool can be taken in any order. However they are, they come to an end, they do not
end before every bound was delivered and collected, and the run that is read off what was collected
is that of the search with one worker: no bound at or below the cutoff is ever given up.
-/

namespace HybridCheck.Search

inductive Worker where
  | idle
  /-- It has taken a bound. -/
  | holding (b : Int)
  /-- It has seen that the bound was not given up. -/
  | exploring (b : Int)
  | delivering (d : Delivery)
  /-- It has seen that there are no more bounds. -/
  | stopped

def Worker.bound? : Worker → Option Int
  | holding b | exploring b => some b
  | delivering d => some d.bound
  | idle | stopped => none

def Worker.delivery? : Worker → Option Delivery
  | delivering d => some d
  | _ => none

/-- A pool of workers with its dispatcher and its collector. -/
structure Pool where
  /-- The bounds that were not handed out yet. -/
  jobs : List Int
  workers : List Worker
  /-- The deliveries in the channel, the oldest first. -/
  results : List Delivery
  /-- The deliveries that were collected, in the order they came. -/
  done : List Delivery
  cutoff : Int
  /-- The bounds that the collector is about to give up. -/
  pending : List Int
  /-- The bounds that were given up. -/
  canceled : List Int

def Delivery.lowers (d : Delivery) (c : Int) : Bool :=
  match d.result with
  | some r => Explored.decisive r && d.bound < c
  | none => false

namespace Pool

def start (bounds : List Int) (workers : Nat) : Pool where
  jobs := bounds
  workers := List.replicate workers .idle
  results := []
  done := []
  cutoff := bounds.getLast?.getD 0
  pending := []
  canceled := []

def receive (bounds : List Int) (s : Pool) (d : Delivery) (rest : List Delivery) : Pool :=
  if d.lowers s.cutoff then
    { s with
      results := rest
      done := s.done ++ [d]
      cutoff := d.bound
      pending := bounds.filter (d.bound < ·) }
  else { s with results := rest, done := s.done ++ [d] }

inductive Step (exploreAt : Int → Explored) (bounds : List Int) : Pool → Pool → Prop
  | take {s : Pool} {b : Int} {bs : List Int} {l r : List Worker} (jobs : s.jobs = b :: bs)
      (worker : s.workers = l ++ .idle :: r) :
      Step exploreAt bounds s { s with jobs := bs, workers := l ++ .holding b :: r }
  | skip {s : Pool} {b : Int} {l r : List Worker} (worker : s.workers = l ++ .holding b :: r)
      (canceled : b ∈ s.canceled) :
      Step exploreAt bounds s { s with workers := l ++ .delivering ⟨b, none⟩ :: r }
  | begin {s : Pool} {b : Int} {l r : List Worker} (worker : s.workers = l ++ .holding b :: r)
      (canceled : b ∉ s.canceled) :
      Step exploreAt bounds s { s with workers := l ++ .exploring b :: r }
  | finish {s : Pool} {b : Int} {x : Explored} {l r : List Worker}
      (worker : s.workers = l ++ .exploring b :: r) (answer : x = exploreAt b ∨ b ∈ s.canceled) :
      Step exploreAt bounds s { s with workers := l ++ .delivering ⟨b, some x⟩ :: r }
  | deliver {s : Pool} {d : Delivery} {l r : List Worker}
      (worker : s.workers = l ++ .delivering d :: r) (room : s.results.length < bounds.length) :
      Step exploreAt bounds s { s with workers := l ++ .idle :: r, results := s.results ++ [d] }
  | collect {s : Pool} {d : Delivery} {rest : List Delivery} (free : s.pending = [])
      (results : s.results = d :: rest) : Step exploreAt bounds s (s.receive bounds d rest)
  | cancel {s : Pool} {b : Int} {bs : List Int} (pending : s.pending = b :: bs) :
      Step exploreAt bounds s { s with pending := bs, canceled := b :: s.canceled }
  | stop {s : Pool} {l r : List Worker} (jobs : s.jobs = [])
      (worker : s.workers = l ++ .idle :: r) :
      Step exploreAt bounds s { s with workers := l ++ .stopped :: r }

abbrev Reaches (exploreAt : Int → Explored) (bounds : List Int) : Pool → Pool → Prop :=
  Relation.ReflTransGen (Step exploreAt bounds)

/-- All workers have stopped and everything was collected. -/
structure Final (s : Pool) : Prop where
  jobs : s.jobs = []
  workers : ∀ w ∈ s.workers, w = .stopped
  results : s.results = []
  pending : s.pending = []

/-- All bounds in a pool, wherever they are. -/
def accounts (s : Pool) : List Int :=
  s.jobs ++ s.workers.filterMap Worker.bound? ++ s.results.map (·.bound) ++ s.done.map (·.bound)

def deliveries (s : Pool) : List Delivery :=
  s.workers.filterMap Worker.delivery? ++ s.results ++ s.done

end Pool

/-! ## The cutoff -/

section

variable {last : Int} {ds : List Delivery}

theorem lowers_iff {d : Delivery} {c : Int} : d.lowers c = true ↔
    d.bound < c ∧ ∃ r, d.result = some r ∧ Explored.decisive r = true := by
  rw [Delivery.lowers]
  cases d.result with
  | none => simp
  | some r => simp [and_comm]

theorem cutoff_append (last : Int) (ds : List Delivery) (d : Delivery) :
    cutoff last (ds ++ [d]) =
      if d.lowers (cutoff last ds) then d.bound else cutoff last ds := by
  obtain ⟨b, result⟩ := d
  simp only [cutoff, List.foldl_append, List.foldl_cons, List.foldl_nil, Delivery.lowers]
  cases result with
  | none => simp
  | some r => rfl

/-- No decisive result is below the cutoff. -/
theorem cutoff_le_bound {d : Delivery} (hd : d ∈ ds) {r : Explored} (hr : d.result = some r)
    (decisive : Explored.decisive r = true) : cutoff last ds ≤ d.bound := by
  induction ds using List.reverseRecOn with
  | nil => cases hd
  | append_singleton ds e ih =>
    rw [cutoff_append]
    rcases List.mem_append.1 hd with hd | hd
    · split
      · next h => exact (lowers_iff.1 h).1.le.trans (ih hd)
      · exact ih hd
    · obtain rfl : d = e := by simpa using hd
      split
      · exact le_rfl
      · next h => exact not_lt.1 fun hlt => h (lowers_iff.2 ⟨hlt, r, hr, decisive⟩)

/-- A cutoff that was moved is the bound of a decisive result. -/
theorem exists_decisive (h : cutoff last ds ≠ last) :
    ∃ d ∈ ds, d.bound = cutoff last ds ∧ ∃ r, d.result = some r ∧ Explored.decisive r = true := by
  induction ds using List.reverseRecOn with
  | nil => exact absurd rfl h
  | append_singleton ds e ih =>
    rw [cutoff_append] at h ⊢
    split
    · next hl => exact ⟨e, by simp, rfl, (lowers_iff.1 hl).2⟩
    · next hl =>
      rw [if_neg hl] at h
      obtain ⟨d, hd, hbound⟩ := ih h
      exact ⟨d, by simp [hd], hbound⟩

end

/-! ## Reading off the verdict -/

section

variable {exploreAt : Int → Explored} {c : Int}

/-- Deliveries in order of their bounds are read off as the bounds would be explored, if up to the
cutoff they are what exploring yields, nothing is decisive before the cutoff, and the cutoff is
either never passed or is itself decisive. -/
theorem readOff_eq_sequential {ds : List Delivery}
    (increasing : (ds.map (·.bound)).Pairwise (· < ·))
    (answered : ∀ d ∈ ds, d.bound ≤ c → d.result = some (exploreAt d.bound))
    (undecided : ∀ d ∈ ds, d.bound < c → Explored.decisive (exploreAt d.bound) = false)
    (ends : (∀ d ∈ ds, d.bound ≤ c) ∨
      c ∈ ds.map (·.bound) ∧ Explored.decisive (exploreAt c) = true)
    (totals : Totals) (trail : List Explored) :
    readOff c totals trail ds = sequential exploreAt totals trail (ds.map (·.bound)) := by
  induction ds generalizing totals trail with
  | nil => rfl
  | cons d ds ih =>
    rw [List.map_cons, List.pairwise_cons] at increasing
    have within : d.bound ≤ c := by
      rcases ends with all | ⟨mem, -⟩
      · exact all d (by simp)
      · rcases List.mem_cons.1 mem with h | h
        · exact h.ge
        · exact (increasing.1 c h).le
    rw [readOff, if_neg (by omega), answered d (by simp) within, List.map_cons, sequential]
    dsimp only
    cases ho : (exploreAt d.bound).outcome with
    | error e => rfl
    | ok o =>
      by_cases hsat : o.answer = .sat
      · simp only [hsat, if_true]
      · simp only [hsat, if_false]
        refine ih increasing.2 (fun d hd => answered d (by simp [hd]))
          (fun d hd => undecided d (by simp [hd])) ?_ _ _
        have open_end : Explored.decisive (exploreAt d.bound) = false := by
          simp [Explored.decisive, ho, hsat]
        rcases ends with all | ⟨mem, decisive⟩
        · exact Or.inl fun d hd => all d (by simp [hd])
        · rcases List.mem_cons.1 mem with rfl | h
          · rw [open_end] at decisive
            cases decisive
          · exact Or.inr ⟨h, decisive⟩

theorem le_getLast {bounds : List Int} (increasing : bounds.Pairwise (· < ·)) {b : Int}
    (hb : b ∈ bounds) : b ≤ bounds.getLast?.getD 0 := by
  rw [List.getLast?_eq_some_getLast (List.ne_nil_of_mem hb), Option.getD_some]
  exact (increasing.imp le_of_lt).rel_getLast hb

/-- The run that is made of deliveries is that of one worker, if up to the cutoff they are what
exploring yields. -/
theorem collect_eq_sequential {bounds : List Int} (increasing : bounds.Pairwise (· < ·))
    {ds : List Delivery} (all : (ds.map (·.bound)).Perm bounds)
    (answered : ∀ d ∈ ds, d.bound ≤ cutoff (bounds.getLast?.getD 0) ds →
      d.result = some (exploreAt d.bound)) :
    collect (bounds.getLast?.getD 0) ds = sequential exploreAt {} [] bounds := by
  have perm : (ds.mergeSort fun a b => a.bound ≤ b.bound).Perm ds := List.mergeSort_perm _ _
  have sorted : (ds.mergeSort fun a b => a.bound ≤ b.bound).Pairwise
      (fun a b => decide (a.bound ≤ b.bound) = true) := by
    refine List.pairwise_mergeSort (fun a b c hab hbc => ?_) (fun a b => ?_) ds
    · simp only [decide_eq_true_eq] at hab hbc ⊢
      exact hab.trans hbc
    · simpa using le_total a.bound b.bound
  have same : (ds.mergeSort fun a b => a.bound ≤ b.bound).map (·.bound) = bounds := by
    refine List.Perm.eq_of_pairwise (fun _ _ _ _ => le_antisymm) ?_
      (increasing.imp fun h => h.le) ((perm.map _).trans all)
    rw [List.pairwise_map]
    exact sorted.imp fun h => by simpa using h
  have collected d (hd : d ∈ ds.mergeSort fun a b => a.bound ≤ b.bound) : d ∈ ds :=
    perm.mem_iff.1 hd
  rw [collect, ← same]
  refine readOff_eq_sequential (by rwa [same]) ?_ ?_ ?_ _ _
  all_goals rw [same]
  · exact fun d hd => answered d (collected d hd)
  · intro d hd hlt
    by_contra h
    have : cutoff (bounds.getLast?.getD 0) ds ≤ d.bound := cutoff_le_bound (collected d hd)
      (answered d (collected d hd) hlt.le) (by simpa using h)
    omega
  · by_cases moved : cutoff (bounds.getLast?.getD 0) ds = bounds.getLast?.getD 0
    · refine Or.inl fun d hd => ?_
      rw [moved]
      refine le_getLast increasing ?_
      rw [← same]
      exact List.mem_map_of_mem hd
    · obtain ⟨d, hd, hbound, r, hr, decisive⟩ := exists_decisive moved
      refine Or.inr ⟨?_, ?_⟩
      · rw [← hbound]
        exact all.mem_iff.1 (List.mem_map_of_mem hd)
      · rw [answered d hd hbound.le] at hr
        cases hr
        rwa [hbound] at decisive

end

/-! ## What every step preserves -/

namespace Pool

variable {exploreAt : Int → Explored} {bounds : List Int} {s t : Pool}

/-- A pool has lost no bound and no worker stopped too early; the cutoff is that of what was
collected, only bounds above it are given up, and every delivery for a bound that was not given up
is what exploring it yields. -/
structure Sound (exploreAt : Int → Explored) (bounds : List Int) (s : Pool) : Prop where
  conserved : s.accounts.Perm bounds
  staffed : s.workers ≠ []
  stopped : .stopped ∈ s.workers → s.jobs = []
  cutoff : s.cutoff = Search.cutoff (bounds.getLast?.getD 0) s.done
  canceled : ∀ b ∈ s.pending ++ s.canceled, s.cutoff < b
  answered : ∀ d ∈ s.deliveries, d.result = some (exploreAt d.bound) ∨ d.bound ∈ s.canceled

theorem sound_start {n : Nat} (hn : 0 < n) : (start bounds n).Sound exploreAt bounds where
  conserved := by
    rw [accounts, start, List.filterMap_replicate_of_none rfl]
    simp
  staffed := by simp [start]; omega
  stopped := by simp [start]
  cutoff := rfl
  canceled := by simp [start]
  answered := by
    rw [deliveries, start, List.filterMap_replicate_of_none rfl]
    simp

/-- A worker may go on with its bound, as long as it delivers what exploring yields or the bound was
given up. -/
theorem Sound.goOn (hs : s.Sound exploreAt bounds) {l r : List Worker} {w w' : Worker}
    (worker : s.workers = l ++ w :: r) (same : w'.bound? = w.bound?)
    (stops : w' = .stopped → s.jobs = [])
    (answer : ∀ d ∈ w'.delivery?, d.result = some (exploreAt d.bound) ∨ d.bound ∈ s.canceled) :
    { s with workers := l ++ w' :: r }.Sound exploreAt bounds where
  conserved := by
    have account := hs.conserved
    rw [accounts, worker] at account
    simpa [accounts, List.filterMap_append, List.filterMap_cons, same] using account
  staffed := by simp
  stopped h := by
    have stopped := hs.stopped
    simp only [worker, List.mem_append, List.mem_cons] at h stopped
    rcases h with h | h | h
    · exact stopped (Or.inl h)
    · exact stops h.symm
    · exact stopped (Or.inr (Or.inr h))
  cutoff := hs.cutoff
  canceled := hs.canceled
  answered d hd := by
    have answered := hs.answered d
    simp only [deliveries, worker, List.mem_append, List.mem_filterMap,
      List.mem_cons] at hd answered
    rcases hd with (⟨w, hw | rfl | hw, hd⟩ | hd) | hd
    · exact answered (Or.inl (Or.inl ⟨w, Or.inl hw, hd⟩))
    · exact answer d hd
    · exact answered (Or.inl (Or.inl ⟨w, Or.inr (Or.inr hw), hd⟩))
    · exact answered (Or.inl (Or.inr hd))
    · exact answered (Or.inr hd)

theorem Sound.take (hs : s.Sound exploreAt bounds) {b : Int} {bs : List Int} {l r : List Worker}
    (jobs : s.jobs = b :: bs) (worker : s.workers = l ++ .idle :: r) :
    { s with jobs := bs, workers := l ++ Worker.holding b :: r }.Sound exploreAt bounds where
  conserved := by
    have account := hs.conserved
    rw [accounts, worker, jobs] at account
    refine List.Perm.trans ?_ account
    rw [List.perm_iff_count]
    intro a
    simp only [accounts, List.filterMap_append, List.filterMap_cons, Worker.bound?,
      List.count_append, List.count_cons]
    omega
  staffed := by simp
  stopped h := by
    have stopped := hs.stopped
    simp only [worker, jobs, List.mem_append, List.mem_cons, reduceCtorEq, false_or, imp_false,
      not_or] at h stopped
    rcases h with h | h
    · exact (stopped.1 h).elim
    · exact (stopped.2 h).elim
  cutoff := hs.cutoff
  canceled := hs.canceled
  answered := by
    have answered := hs.answered
    simpa [deliveries, worker, List.filterMap_cons, Worker.delivery?] using answered

theorem Sound.deliver (hs : s.Sound exploreAt bounds) {d : Delivery} {l r : List Worker}
    (worker : s.workers = l ++ .delivering d :: r) :
    { s with workers := l ++ Worker.idle :: r, results := s.results ++ [d] }.Sound exploreAt
      bounds where
  conserved := by
    have account := hs.conserved
    rw [accounts, worker] at account
    refine List.Perm.trans ?_ account
    rw [List.perm_iff_count]
    intro a
    simp only [accounts, List.filterMap_append, List.filterMap_cons, Worker.bound?,
      List.count_append, List.count_cons, List.map_append, List.map_cons, List.map_nil,
      List.count_nil]
    omega
  staffed := by simp
  stopped h := by
    have stopped := hs.stopped
    simp only [worker, List.mem_append, List.mem_cons, reduceCtorEq, false_or] at h stopped
    exact stopped h
  cutoff := hs.cutoff
  canceled := hs.canceled
  answered e he := by
    refine hs.answered e ?_
    simp only [deliveries, worker, List.filterMap_append, List.filterMap_cons, Worker.delivery?,
      List.mem_append, List.mem_cons, List.not_mem_nil, or_false] at he ⊢
    tauto

/-- Moving the cutoff needs a decisive result for a bound that was not given up, and gives up larger
bounds only. -/
theorem Sound.receive (hs : s.Sound exploreAt bounds) {d : Delivery} {rest : List Delivery}
    (results : s.results = d :: rest) : (s.receive bounds d rest).Sound exploreAt bounds := by
  have account : (s.jobs ++ s.workers.filterMap Worker.bound? ++ rest.map (·.bound) ++
      (s.done ++ [d]).map (·.bound)).Perm bounds := by
    have account := hs.conserved
    rw [accounts, results] at account
    refine List.Perm.trans ?_ account
    rw [List.perm_iff_count]
    intro a
    simp only [List.count_append, List.count_cons, List.map_append, List.map_cons, List.map_nil,
      List.count_nil]
    omega
  have answered e (he : e ∈ s.workers.filterMap Worker.delivery? ++ rest ++ (s.done ++ [d])) :
      e.result = some (exploreAt e.bound) ∨ e.bound ∈ s.canceled := by
    refine hs.answered e ?_
    simp only [deliveries, results, List.mem_append, List.mem_cons, List.not_mem_nil,
      or_false] at he ⊢
    tauto
  have cutoff := cutoff_append (bounds.getLast?.getD 0) s.done d
  rw [← hs.cutoff] at cutoff
  rw [Pool.receive]
  split
  · next h =>
    refine ⟨account, hs.staffed, hs.stopped, by rw [cutoff, if_pos h], fun b hb => ?_, answered⟩
    rcases List.mem_append.1 hb with hb | hb
    · simpa using (List.mem_filter.1 hb).2
    · exact (lowers_iff.1 h).1.trans (hs.canceled b (List.mem_append.2 (Or.inr hb)))
  · next h =>
    exact ⟨account, hs.staffed, hs.stopped, by rw [cutoff, if_neg h], hs.canceled, answered⟩

theorem Step.sound (h : Step exploreAt bounds s t) (hs : s.Sound exploreAt bounds) :
    t.Sound exploreAt bounds := by
  cases h with
  | take jobs worker => exact hs.take jobs worker
  | skip worker canceled =>
    exact hs.goOn worker rfl nofun (by simpa [Worker.delivery?] using canceled)
  | begin worker canceled => exact hs.goOn worker rfl nofun nofun
  | finish worker answer =>
    exact hs.goOn worker rfl nofun (by simpa [Worker.delivery?] using answer)
  | deliver worker room => exact hs.deliver worker
  | collect _ results => exact hs.receive results
  | cancel pending =>
    refine ⟨hs.conserved, hs.staffed, hs.stopped, hs.cutoff, fun b hb => hs.canceled b ?_,
      fun d hd => (hs.answered d hd).imp_right (List.mem_cons_of_mem _)⟩
    simp only [pending, List.mem_append, List.mem_cons] at hb ⊢
    tauto
  | stop jobs worker => exact hs.goOn worker rfl (fun _ => jobs) nofun

theorem Reaches.sound (h : Reaches exploreAt bounds s t) (hs : s.Sound exploreAt bounds) :
    t.Sound exploreAt bounds := by
  induction h with
  | refl => exact hs
  | tail _ step ih => exact step.sound ih

/-! ## Every run of a pool ends -/

/-- How many steps a worker may still take for what it is busy with, and the collector for what it
delivers, if a delivery takes the collector up to `n + 1` steps. -/
def weight (n : Nat) : Worker → Nat
  | .stopped => 0
  | .idle => 1
  | .delivering _ => n + 3
  | .exploring _ => n + 4
  | .holding _ => n + 5

/-- How many steps a pool may still take. -/
def left (n : Nat) (s : Pool) : Nat :=
  s.jobs.length * (n + 5) + (s.workers.map (weight n)).sum + s.results.length * (n + 1) +
    s.pending.length

theorem Step.left_lt (h : Step exploreAt bounds s t) :
    t.left bounds.length < s.left bounds.length := by
  cases h with
  | take jobs worker =>
    simp only [left, jobs, worker, List.length_cons, List.map_append, List.map_cons,
      List.sum_append, List.sum_cons, weight, Nat.add_mul]
    omega
  | skip worker | begin worker | finish worker | stop _ worker =>
    simp only [left, worker, List.map_append, List.map_cons, List.sum_append, List.sum_cons, weight]
    omega
  | deliver worker =>
    simp only [left, worker, List.length_append, List.length_cons, List.length_nil,
      List.map_append, List.map_cons, List.sum_append, List.sum_cons, weight, Nat.add_mul]
    omega
  | @collect d rest free results =>
    have short := List.length_filter_le (d.bound < ·) bounds
    simp only [left, receive]
    split
    · simp only [results, free, List.length_cons, List.length_nil, Nat.add_mul]
      omega
    · simp only [results, List.length_cons, Nat.add_mul]
      omega
  | cancel pending =>
    simp only [left, pending, List.length_cons]
    omega

theorem step_wellFounded (exploreAt : Int → Explored) (bounds : List Int) :
    WellFounded fun t s => Step exploreAt bounds s t :=
  Subrelation.wf (fun h => h.left_lt) (measure (left bounds.length)).wf

/-- A pool that has not come to its end can take a step. -/
theorem Sound.exists_step (hs : s.Sound exploreAt bounds) (unfinished : ¬s.Final) :
    ∃ t, Step exploreAt bounds s t := by
  cases hp : s.pending with
  | cons b bs => exact ⟨_, .cancel hp⟩
  | nil =>
  cases hr : s.results with
  | cons d rest => exact ⟨_, .collect hp hr⟩
  | nil =>
  by_cases all : ∀ w ∈ s.workers, w = .stopped
  · obtain ⟨w, hw⟩ := List.exists_mem_of_ne_nil _ hs.staffed
    exact (unfinished ⟨hs.stopped (all w hw ▸ hw), all, hr, hp⟩).elim
  · push Not at all
    obtain ⟨w, hw, active⟩ := all
    obtain ⟨l, r, worker⟩ := List.append_of_mem hw
    cases w with
    | stopped => exact (active rfl).elim
    | idle =>
      cases hj : s.jobs with
      | nil => exact ⟨_, .stop hj worker⟩
      | cons b bs => exact ⟨_, .take hj worker⟩
    | holding b =>
      by_cases hc : b ∈ s.canceled
      · exact ⟨_, .skip worker hc⟩
      · exact ⟨_, .begin worker hc⟩
    | exploring b => exact ⟨_, .finish worker (Or.inl rfl)⟩
    | delivering d =>
      have total := hs.conserved.length_eq
      simp only [accounts, worker, List.length_append, List.filterMap_append, List.filterMap_cons,
        Worker.bound?, List.length_cons] at total
      exact ⟨_, .deliver worker (by rw [hr, List.length_nil]; omega)⟩

section

variable (hs : s.Sound exploreAt bounds) (final : s.Final)
include hs

theorem Sound.kept {d : Delivery} (hd : d ∈ s.done) (hc : d.bound ≤ s.cutoff) :
    d.bound ∉ s.canceled ∧ d.result = some (exploreAt d.bound) := by
  have unharmed : d.bound ∉ s.canceled := fun h =>
    absurd (hs.canceled d.bound (List.mem_append.2 (Or.inr h))) (not_lt.2 hc)
  exact ⟨unharmed, (hs.answered d (List.mem_append.2 (Or.inr hd))).resolve_right unharmed⟩

include final

/-- What a pool has collected at its end is read off as the run of one worker. -/
theorem Sound.collect_eq (increasing : bounds.Pairwise (· < ·)) :
    collect (bounds.getLast?.getD 0) s.done = sequential exploreAt {} [] bounds := by
  refine collect_eq_sequential increasing ?_ fun d hd hc => ?_
  · have all := hs.conserved
    have none : s.workers.filterMap Worker.bound? = [] := by
      refine List.filterMap_eq_nil_iff.2 fun w hw => ?_
      rw [final.workers w hw]
      rfl
    rw [accounts, final.jobs, none, final.results] at all
    simpa using all
  · rw [← hs.cutoff] at hc
    exact (hs.kept hd hc).2

end

/-! ## Taking bounds one after the other -/

section

variable {n : Nat} {done : List Delivery} {c : Int} {canceled : List Int}

/-- A pool between bounds: all workers are idle and everything was collected. -/
def resting (n : Nat) (jobs : List Int) (done : List Delivery) (cutoff : Int)
    (canceled : List Int) : Pool :=
  ⟨jobs, List.replicate n .idle, [], done, cutoff, [], canceled⟩

theorem reaches_canceled (jobs : List Int) (workers : List Worker) (done : List Delivery) (c : Int)
    (pending canceled : List Int) :
    Reaches exploreAt bounds ⟨jobs, workers, [], done, c, pending, canceled⟩
      ⟨jobs, workers, [], done, c, [], pending.reverse ++ canceled⟩ := by
  induction pending generalizing canceled with
  | nil => exact .refl
  | cons b bs ih =>
    refine .head (.cancel rfl) ?_
    simpa using ih (b :: canceled)

/-- A pool delivers a bound and collects it. -/
theorem reaches_received {b : Int} {bs : List Int} {d : Delivery} (hb : b ∈ bounds)
    (delivers : Reaches exploreAt bounds
      ⟨bs, .holding b :: List.replicate n .idle, [], done, c, [], canceled⟩
      ⟨bs, .delivering d :: List.replicate n .idle, [], done, c, [], canceled⟩) :
    Reaches exploreAt bounds (resting (n + 1) (b :: bs) done c canceled)
      (if d.lowers c then
        resting (n + 1) bs (done ++ [d]) d.bound ((bounds.filter (d.bound < ·)).reverse ++ canceled)
      else resting (n + 1) bs (done ++ [d]) c canceled) := by
  have room : 0 < bounds.length := List.length_pos_of_mem hb
  have taken : Step exploreAt bounds (resting (n + 1) (b :: bs) done c canceled)
      ⟨bs, .holding b :: List.replicate n .idle, [], done, c, [], canceled⟩ :=
    .take (l := []) rfl rfl
  have delivered : Step exploreAt bounds
      ⟨bs, .delivering d :: List.replicate n .idle, [], done, c, [], canceled⟩
      ⟨bs, .idle :: List.replicate n .idle, [d], done, c, [], canceled⟩ :=
    .deliver (l := []) rfl room
  have collected : Step exploreAt bounds
      ⟨bs, .idle :: List.replicate n .idle, [d], done, c, [], canceled⟩
      (receive bounds ⟨bs, .idle :: List.replicate n .idle, [d], done, c, [], canceled⟩ d []) :=
    .collect rfl rfl
  have received := (Relation.ReflTransGen.head taken delivers).tail delivered |>.tail collected
  rw [receive] at received
  split at received
  · next h =>
    rw [if_pos h]
    exact received.trans (reaches_canceled ..)
  · next h =>
    rw [if_neg h]
    exact received

/-- A bound that was given up is delivered without a result. -/
theorem reaches_skipped {b : Int} {bs : List Int} (hb : b ∈ bounds) (given : b ∈ canceled) :
    Reaches exploreAt bounds (resting (n + 1) (b :: bs) done c canceled)
      (resting (n + 1) bs (done ++ [⟨b, none⟩]) c canceled) := by
  have skipped : Step exploreAt bounds
      ⟨bs, .holding b :: List.replicate n .idle, [], done, c, [], canceled⟩
      ⟨bs, .delivering ⟨b, none⟩ :: List.replicate n .idle, [], done, c, [], canceled⟩ :=
    .skip (l := []) rfl given
  have received := reaches_received hb (.single skipped)
  rwa [if_neg (by simp [Delivery.lowers])] at received

/-- Any other bound is explored. -/
theorem reaches_explored {b : Int} {bs : List Int} (hb : b ∈ bounds) (kept : b ∉ canceled) :
    Reaches exploreAt bounds (resting (n + 1) (b :: bs) done c canceled)
      (if Delivery.lowers ⟨b, some (exploreAt b)⟩ c then
        resting (n + 1) bs (done ++ [⟨b, some (exploreAt b)⟩]) b
          ((bounds.filter (b < ·)).reverse ++ canceled)
      else resting (n + 1) bs (done ++ [⟨b, some (exploreAt b)⟩]) c canceled) := by
  have begun : Step exploreAt bounds
      ⟨bs, .holding b :: List.replicate n .idle, [], done, c, [], canceled⟩
      ⟨bs, .exploring b :: List.replicate n .idle, [], done, c, [], canceled⟩ :=
    .begin (l := []) rfl kept
  have finished : Step exploreAt bounds
      ⟨bs, .exploring b :: List.replicate n .idle, [], done, c, [], canceled⟩
      ⟨bs, .delivering ⟨b, some (exploreAt b)⟩ :: List.replicate n .idle, [], done, c, [],
        canceled⟩ :=
    .finish (l := []) rfl (Or.inl rfl)
  exact reaches_received hb (.head begun (.single finished))

/-- A pool that takes up the bounds one after the other delivers them in order. -/
theorem reaches_inOrder {jobs : List Int} (givenUp : Bool) (done : List Delivery) (c : Int)
    (canceled : List Int) (increasing : jobs.Pairwise (· < ·))
    (within : ∀ b ∈ jobs, b ∈ bounds) (given : givenUp = true → ∀ b ∈ jobs, b ∈ canceled)
    (kept : givenUp = false → ∀ b ∈ jobs, b ∉ canceled ∧ b ≤ c) :
    ∃ c' canceled', Reaches exploreAt bounds (resting (n + 1) jobs done c canceled)
      (resting (n + 1) [] (done ++ inOrder exploreAt givenUp jobs) c' canceled') := by
  induction jobs generalizing givenUp done c canceled with
  | nil => exact ⟨c, canceled, by rw [inOrder, List.append_nil]⟩
  | cons b bs ih =>
    obtain ⟨above, increasing⟩ := List.pairwise_cons.1 increasing
    have hb : b ∈ bounds := within b (by simp)
    have later b' (hb' : b' ∈ bs) : b' ∈ bounds := within b' (by simp [hb'])
    cases givenUp with
    | true =>
      have given := given rfl
      obtain ⟨c', canceled', rest⟩ := ih true (done ++ [⟨b, none⟩]) c canceled increasing
        later (fun _ b' hb' => given b' (by simp [hb'])) nofun
      refine ⟨c', canceled', (reaches_skipped hb (given b (by simp))).trans ?_⟩
      rw [inOrder, if_pos rfl]
      simpa using rest
    | false =>
      have kept := kept rfl
      have received : Reaches exploreAt bounds (resting (n + 1) (b :: bs) done c canceled) _ :=
        reaches_explored hb (kept b (by simp)).1
      rw [inOrder, if_neg (by simp)]
      split at received
      · next h =>
        have decisive : Explored.decisive (exploreAt b) = true := by
          obtain ⟨-, r, hr, decisive⟩ := lowers_iff.1 h
          cases hr
          exact decisive
        have given b' (hb' : b' ∈ bs) : b' ∈ (bounds.filter (b < ·)).reverse ++ canceled := by
          simp [later b' hb', above b' hb']
        obtain ⟨c', canceled', rest⟩ := ih true (done ++ [⟨b, some (exploreAt b)⟩]) b
          ((bounds.filter (b < ·)).reverse ++ canceled) increasing later (fun _ => given) nofun
        refine ⟨c', canceled', received.trans ?_⟩
        simpa [decisive] using rest
      · next h =>
        -- a decisive result that does not move the cutoff is that of the last bound
        have given (decisive : Explored.decisive (exploreAt b) = true) b' (hb' : b' ∈ bs) :
            b' ∈ canceled := by
          have last : ¬b < c := fun hlt => h (lowers_iff.2 ⟨hlt, _, rfl, decisive⟩)
          have := above b' hb'
          have := (kept b' (by simp [hb'])).2
          omega
        obtain ⟨c', canceled', rest⟩ := ih (Explored.decisive (exploreAt b))
          (done ++ [⟨b, some (exploreAt b)⟩]) c canceled increasing later given
          fun _ b' hb' => kept b' (by simp [hb'])
        refine ⟨c', canceled', received.trans ?_⟩
        simpa using rest

theorem reaches_stopped (done : List Delivery) (c : Int) (canceled : List Int) (stopped n : Nat) :
    Reaches exploreAt bounds
      ⟨[], List.replicate stopped .stopped ++ List.replicate n .idle, [], done, c, [], canceled⟩
      ⟨[], List.replicate (stopped + n) .stopped, [], done, c, [], canceled⟩ := by
  induction n generalizing stopped with
  | zero => simpa using Relation.ReflTransGen.refl
  | succ n ih =>
    refine .head (.stop (l := List.replicate stopped .stopped) rfl rfl) ?_
    have rest := ih (stopped + 1)
    rw [List.replicate_succ', List.append_assoc, Nat.add_right_comm] at rest
    exact rest

end

end Pool

/-! ## Agreement -/

theorem increasing_bounds (s : Settings) : (bounds s).Pairwise (· < ·) := by
  rw [bounds]
  split
  · rw [steps, List.pairwise_map]
    exact List.pairwise_lt_range.imp fun h => by simpa using h
  · exact List.pairwise_singleton ..

/-- However the workers of a pool take turns, they come to an end, and not before every bound was
collected; the run that is read off is that of the search with one worker; and what it is read off
from was never given up. Delivering the bounds in order is one way for them to take turns. -/
theorem pool_agrees (exploreAt : Int → Explored) (s : Settings) (hw : 1 < s.workers) :
    WellFounded (fun q p => Pool.Step exploreAt (bounds s) p q) ∧
    (∀ p, Pool.Reaches exploreAt (bounds s) (.start (bounds s) s.workers.toNat) p →
      ((∃ q, Pool.Step exploreAt (bounds s) p q) ∨ p.Final) ∧
      (p.Final →
        collect ((bounds s).getLast?.getD 0) p.done = sequential exploreAt {} [] (bounds s) ∧
        ∀ d ∈ p.done, d.bound ≤ p.cutoff →
          d.bound ∉ p.canceled ∧ d.result = some (exploreAt d.bound))) ∧
    ∃ p, Pool.Reaches exploreAt (bounds s) (.start (bounds s) s.workers.toNat) p ∧ p.Final ∧
      parallel exploreAt false (bounds s) = collect ((bounds s).getLast?.getD 0) p.done := by
  have increasing := increasing_bounds s
  refine ⟨Pool.step_wellFounded exploreAt _, fun p reached => ⟨?_, fun final => ?_⟩, ?_⟩
  · have sound := reached.sound (Pool.sound_start (by omega))
    by_cases final : p.Final
    · exact Or.inr final
    · exact Or.inl (sound.exists_step final)
  · have sound := reached.sound (Pool.sound_start (by omega))
    exact ⟨sound.collect_eq final increasing, fun d hd => sound.kept hd⟩
  · obtain ⟨n, hn⟩ : ∃ n, s.workers.toNat = n + 1 := ⟨s.workers.toNat - 1, by omega⟩
    have kept b (hb : b ∈ bounds s) : b ∉ ([] : List Int) ∧ b ≤ (bounds s).getLast?.getD 0 :=
      ⟨by simp, le_getLast increasing hb⟩
    obtain ⟨c, canceled, delivered⟩ := Pool.reaches_inOrder (n := n) false [] _ []
      increasing (fun b hb => hb) nofun fun _ => kept
    rw [hn]
    refine ⟨_, delivered.trans (Pool.reaches_stopped _ _ _ 0 (n + 1)), ⟨rfl, ?_, rfl, rfl⟩, rfl⟩
    exact fun w hw => List.eq_of_mem_replicate hw

/-- Nothing is found with no jump, a counterexample with one, and more jumps are too many. -/
def oneJump (b : Int) : Explored where
  bound := b
  separatedSize := 1
  outcome :=
    if b = 0 then .ok { answer := .unsat, size := 3 }
    else if b = 1 then .ok { answer := .sat, size := 5, model := some [("x@0.0", "0")] }
    else .error .unavailable

theorem pool_of_oneJump : (1 : Int) < 2 ∧
    ∃ p, Pool.Reaches oneJump [0, 1, 2] (.start [0, 1, 2] 2) p ∧ p.Final ∧
      collect 2 p.done = sequential oneJump {} [] [0, 1, 2] := by
  obtain ⟨-, all, p, reached, final, -⟩ :=
    pool_agrees oneJump { maxBound := 2, workers := 2 } (by decide)
  exact ⟨by decide, p, reached, final, ((all p reached).2 final).1⟩

end HybridCheck.Search
