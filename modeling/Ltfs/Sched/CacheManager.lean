import Ltfs.Sched.Request

/-!
# The cache manager

`cache_manager.c`: a pool of equal objects that grows by doubling while objects are asked for, and
shrinks again as they are given back.

* `ObjectPool` — the pool, and with it the objects that callers hold; `allocateObject`, `getObject`,
  `freeObject` are the calls, with memory available.
* `ObjectPool.Sound` — the capacity counts the objects; every step keeps it.
* `cachePool_meets_iff` — when an allocation is refused only at the maximum.
* `allocateObject_cachePool` — then the pool is the one that the scheduler assumes.

The data of the objects is left out.
-/

namespace Ltfs.Sched

/-- A `size_t`. -/
def sizeT (n : ℕ) : ℕ := n % 2 ^ 64

/-- `refcount++` and `refcount--` of a `uint32_t`. -/
def incRef (n : ℕ) : ℕ := if n = 2 ^ 32 - 1 then 0 else n + 1

def decRef (n : ℕ) : ℕ := if n = 0 then 2 ^ 32 - 1 else n - 1

/-- `struct cache_pool`. Objects have numbers; `pool` is the queue of unused objects, `outstanding`
are those in the hands of callers. -/
structure ObjectPool where
  initialCapacity : ℕ
  maxCapacity : ℕ
  currentCapacity : ℕ
  pool : List ℕ
  outstanding : List ℕ
  refcount : ℕ → ℕ
  fresh : ℕ

namespace ObjectPool

/-- `_cache_manager_create_object`, a number of times. -/
def createObjects (p : ObjectPool) (n : ℕ) : ObjectPool :=
  { p with
    pool := p.pool ++ List.range' p.fresh n
    refcount := fun o => if p.fresh ≤ o then 1 else p.refcount o
    fresh := p.fresh + n }

/-- `cache_manager_init`. -/
def init (initialCapacity maxCapacity : ℕ) : ObjectPool :=
  createObjects
    { initialCapacity, maxCapacity, currentCapacity := initialCapacity, pool := [],
      outstanding := [], refcount := fun _ => 0, fresh := 0 } initialCapacity

/-- The capacity that a pool without unused objects grows to. -/
def newSize (p : ObjectPool) : ℕ :=
  if sizeT (p.currentCapacity * 2) < p.maxCapacity then
    if p.currentCapacity ≠ 0 then sizeT (p.currentCapacity * 2) else p.maxCapacity / 2
  else
    -- Expand until the maximum capacity
    p.maxCapacity

/-- `cache_manager_allocate_object`. -/
def allocateObject (p : ObjectPool) : Option (ℕ × ObjectPool) :=
  match p.pool with
  | object :: rest =>
    -- Return the first available object
    some (object, { p with
      pool := rest
      outstanding := object :: p.outstanding
      refcount := fun o => if o = object then 1 else p.refcount o })
  | [] =>
    if p.currentCapacity = p.maxCapacity then none
    else
      let grown := p.createObjects (p.newSize - p.currentCapacity)
      match grown.pool.getLast? with
      | none => none
      | some lastObject =>
        some (lastObject, { grown with
          currentCapacity := p.currentCapacity + (p.newSize - p.currentCapacity)
          pool := grown.pool.dropLast
          outstanding := lastObject :: p.outstanding })

/-- `cache_manager_get_object`. -/
def getObject (p : ObjectPool) (object : ℕ) : ObjectPool :=
  { p with refcount := fun o => if o = object then incRef (p.refcount o) else p.refcount o }

/-- `cache_manager_free_object`. -/
def freeObject (p : ObjectPool) (object : ℕ) : ObjectPool :=
  let refcount := decRef (p.refcount object)
  let p := { p with refcount := fun o => if o = object then refcount else p.refcount o }
  if 0 < refcount then p
  else
    let p := { p with outstanding := p.outstanding.erase object }
    if p.initialCapacity < p.currentCapacity then
      -- Shrink the cache
      { p with currentCapacity := p.currentCapacity - 1 }
    else
      -- Add the object back to the pool of ready to be used
      { p with pool := p.pool ++ [object] }

/-- A pool after some calls. Callers pass objects that they hold. -/
inductive Reachable (initialCapacity maxCapacity : ℕ) : ObjectPool → Prop
  | init : Reachable initialCapacity maxCapacity (init initialCapacity maxCapacity)
  | allocate {p p' : ObjectPool} {object : ℕ} (hp : Reachable initialCapacity maxCapacity p)
    (h : p.allocateObject = some (object, p')) : Reachable initialCapacity maxCapacity p'
  | get {p : ObjectPool} {object : ℕ} (hp : Reachable initialCapacity maxCapacity p)
    (h : object ∈ p.outstanding) : Reachable initialCapacity maxCapacity (p.getObject object)
  | free {p : ObjectPool} {object : ℕ} (hp : Reachable initialCapacity maxCapacity p)
    (h : object ∈ p.outstanding) : Reachable initialCapacity maxCapacity (p.freeObject object)

/-- The capacity is the number of objects there are, between its two marks. -/
structure Sound (p : ObjectPool) : Prop where
  count : p.currentCapacity = p.pool.length + p.outstanding.length
  low : p.initialCapacity ≤ p.currentCapacity
  high : p.currentCapacity ≤ p.maxCapacity

/-! ## One call -/

theorem newSize_le (p : ObjectPool) : p.newSize ≤ p.maxCapacity := by
  unfold newSize
  split
  · split
    · omega
    · exact Nat.div_le_self _ _
  · exact le_refl _

/-- Everything an allocation can do. -/
theorem allocateObject_cases (p : ObjectPool) :
    (p.pool = [] ∧ p.allocateObject = none ∧
      (p.currentCapacity = p.maxCapacity ∨ p.newSize ≤ p.currentCapacity)) ∨
    ∃ object p', p.allocateObject = some (object, p') ∧ p'.outstanding = object :: p.outstanding ∧
      p'.refcount object = 1 ∧ (∀ o ∈ p.outstanding, p.refcount o = 1 → p'.refcount o = 1) ∧
      p'.initialCapacity = p.initialCapacity ∧ p'.maxCapacity = p.maxCapacity ∧
      (p'.pool.length + 1 = p.pool.length ∧ p'.currentCapacity = p.currentCapacity ∨
        p.pool = [] ∧ p'.pool.length + 1 = p.newSize - p.currentCapacity ∧
          p'.currentCapacity = p.newSize) := by
  cases hpool : p.pool with
  | cons object rest =>
    refine .inr ⟨object, { p with
      pool := rest
      outstanding := object :: p.outstanding
      refcount := fun o => if o = object then 1 else p.refcount o }, ?_, rfl, if_pos rfl, ?_, rfl,
      rfl, .inl ⟨rfl, rfl⟩⟩
    · rw [allocateObject, hpool]
    · intro o _ ho
      dsimp only
      split
      · rfl
      · exact ho
  | nil =>
    by_cases hfull : p.currentCapacity = p.maxCapacity
    · refine .inl ⟨rfl, ?_, .inl hfull⟩
      rw [allocateObject, hpool]
      exact if_pos hfull
    · have hgrown : (p.createObjects (p.newSize - p.currentCapacity)).pool
          = List.range' p.fresh (p.newSize - p.currentCapacity) := by
        rw [createObjects, hpool, List.nil_append]
      by_cases hnone : p.newSize ≤ p.currentCapacity
      · refine .inl ⟨rfl, ?_, .inr hnone⟩
        have hzero : p.newSize - p.currentCapacity = 0 := by omega
        rw [allocateObject, hpool]
        dsimp only
        rw [if_neg hfull, hgrown, hzero]
        rfl
      · obtain ⟨n, hn⟩ : ∃ n, p.newSize - p.currentCapacity = n + 1 :=
          ⟨p.newSize - p.currentCapacity - 1, by omega⟩
        have hpool' : (p.createObjects (n + 1)).pool = List.range' p.fresh n ++ [p.fresh + n] := by
          rw [← hn, hgrown, hn, List.range'_concat, Nat.one_mul]
        refine .inr ⟨p.fresh + n, { p.createObjects (n + 1) with
          currentCapacity := p.newSize
          pool := List.range' p.fresh n
          outstanding := (p.fresh + n) :: p.outstanding }, ?_, rfl, ?_, ?_, rfl, rfl, .inr ⟨rfl, ?_, rfl⟩⟩
        · rw [allocateObject, hpool]
          dsimp only
          rw [if_neg hfull, hn, hpool', List.getLast?_concat]
          dsimp only
          rw [List.dropLast_concat]
          congr 3
          omega
        · exact if_pos (Nat.le_add_right _ _)
        · intro o _ ho
          show (if p.fresh ≤ o then 1 else p.refcount o) = 1
          split
          · rfl
          · exact ho
        · rw [hn]
          exact congrArg (· + 1) (List.length_range' ..)

/-- Everything that giving an object back can do. -/
theorem freeObject_cases (p : ObjectPool) (object : ℕ) :
    ((p.freeObject object).outstanding = p.outstanding ∧
      (p.freeObject object).pool = p.pool ∧
      (p.freeObject object).currentCapacity = p.currentCapacity ∧ p.refcount object ≠ 1) ∨
    ((p.freeObject object).outstanding = p.outstanding.erase object ∧
      (p.initialCapacity < p.currentCapacity ∧ (p.freeObject object).pool = p.pool ∧
          (p.freeObject object).currentCapacity = p.currentCapacity - 1 ∨
        p.currentCapacity ≤ p.initialCapacity ∧ (p.freeObject object).pool = p.pool ++ [object] ∧
          (p.freeObject object).currentCapacity = p.currentCapacity)) := by
  unfold freeObject
  dsimp only
  split
  · rename_i hpos
    refine .inl ⟨rfl, rfl, rfl, ?_⟩
    intro hone
    rw [hone] at hpos
    exact absurd hpos (by decide)
  · split
    · rename_i hshrink
      exact .inr ⟨rfl, .inl ⟨hshrink, rfl, rfl⟩⟩
    · rename_i hkeep
      exact .inr ⟨rfl, .inr ⟨not_lt.mp hkeep, rfl, rfl⟩⟩

@[simp] theorem freeObject_initialCapacity (p : ObjectPool) (object : ℕ) :
    (p.freeObject object).initialCapacity = p.initialCapacity := by
  unfold freeObject
  dsimp only
  split
  · rfl
  · split <;> rfl

@[simp] theorem freeObject_maxCapacity (p : ObjectPool) (object : ℕ) :
    (p.freeObject object).maxCapacity = p.maxCapacity := by
  unfold freeObject
  dsimp only
  split
  · rfl
  · split <;> rfl

/-! ## Runs -/

theorem sound_init {initialCapacity maxCapacity : ℕ} (h : initialCapacity ≤ maxCapacity) :
    Sound (init initialCapacity maxCapacity) :=
  ⟨(List.length_range' ..).symm, le_refl _, h⟩

theorem Sound.allocate {p p' : ObjectPool} {object : ℕ} (hs : Sound p)
    (h : p.allocateObject = some (object, p')) : Sound p' := by
  rcases allocateObject_cases p with ⟨-, hnone, -⟩ |
    ⟨object', p'', hsome, hout, -, -, hinit, hmax, hgrow⟩
  · rw [hnone] at h
    cases h
  · rw [hsome, Option.some.injEq, Prod.mk.injEq] at h
    obtain ⟨rfl, rfl⟩ := h
    have hcount := hs.count
    have hlow := hs.low
    have hhigh := hs.high
    have hnew := newSize_le p
    have hlen : p''.outstanding.length = p.outstanding.length + 1 := by
      rw [hout, List.length_cons]
    rcases hgrow with ⟨hpool, hcap⟩ | ⟨hpool, hpool', hcap⟩
    · constructor <;> omega
    · rw [hpool, List.length_nil] at hcount
      constructor <;> omega

theorem Sound.free {p : ObjectPool} {object : ℕ} (hs : Sound p) (h : object ∈ p.outstanding) :
    Sound (p.freeObject object) := by
  have hcount := hs.count
  have hlow := hs.low
  have hhigh := hs.high
  have hpos := List.length_pos_of_mem h
  have herase := List.length_erase_of_mem h
  have hinit := freeObject_initialCapacity p object
  have hmax := freeObject_maxCapacity p object
  rcases freeObject_cases p object with ⟨hout, hpool, hcap, -⟩ |
    ⟨hout, ⟨hshrink, hpool, hcap⟩ | ⟨hkeep, hpool, hcap⟩⟩
  · constructor
    · rw [hout, hpool]
      omega
    · omega
    · omega
  · constructor
    · rw [hout, hpool, herase]
      omega
    · omega
    · omega
  · constructor
    · rw [hout, hpool, herase, List.length_append, List.length_singleton]
      omega
    · omega
    · omega

/-- Every call keeps the count. The induction is on the calls. -/
theorem Reachable.sound {initialCapacity maxCapacity : ℕ} (h : initialCapacity ≤ maxCapacity)
    {p : ObjectPool} (hp : Reachable initialCapacity maxCapacity p) :
    Sound p ∧ p.initialCapacity = initialCapacity ∧ p.maxCapacity = maxCapacity := by
  induction hp with
  | init => exact ⟨sound_init h, rfl, rfl⟩
  | allocate _ hcall ih =>
    obtain ⟨hs, hinit, hmax⟩ := ih
    refine ⟨hs.allocate hcall, ?_⟩
    rcases allocateObject_cases _ with ⟨-, hnone, -⟩ | ⟨_, _, hsome, -, -, -, hinit', hmax', -⟩
    · rw [hnone] at hcall
      cases hcall
    · rw [hsome, Option.some.injEq, Prod.mk.injEq] at hcall
      obtain ⟨-, rfl⟩ := hcall
      exact ⟨hinit'.trans hinit, hmax'.trans hmax⟩
  | get _ _ ih => exact ⟨⟨ih.1.count, ih.1.low, ih.1.high⟩, ih.2⟩
  | @free p object _ hcall ih =>
    obtain ⟨hs, hinit, hmax⟩ := ih
    exact ⟨hs.free hcall, (freeObject_initialCapacity p object).trans hinit,
      (freeObject_maxCapacity p object).trans hmax⟩

/-- What the pool promises in a state. -/
structure Meets (maxCapacity : ℕ) (p : ObjectPool) : Prop where
  count : p.currentCapacity = p.pool.length + p.outstanding.length
  high : p.currentCapacity ≤ maxCapacity
  refused : p.allocateObject = none → p.outstanding.length = maxCapacity

/-- As long as allocations are refused at the maximum only, any number of objects up to it can be
in use at once. -/
theorem exists_outstanding {initialCapacity maxCapacity : ℕ}
    (hall : ∀ p, Reachable initialCapacity maxCapacity p → Meets maxCapacity p) (n : ℕ)
    (hn : n ≤ maxCapacity) :
    ∃ p, Reachable initialCapacity maxCapacity p ∧ p.outstanding.length = n ∧
      ∀ o ∈ p.outstanding, p.refcount o = 1 := by
  induction n with
  | zero => exact ⟨_, .init, rfl, fun o ho => nomatch ho⟩
  | succ n ih =>
    obtain ⟨p, hp, hlen, hone⟩ := ih (by omega)
    rcases allocateObject_cases p with ⟨-, hnone, -⟩ | ⟨object, p', hsome, hout, hobj, hold, -⟩
    · have hmax := (hall p hp).refused hnone
      omega
    · refine ⟨p', .allocate hp hsome, by rw [hout, List.length_cons, hlen], ?_⟩
      rw [hout, List.forall_mem_cons]
      exact ⟨hobj, fun o ho => hold o ho (hone o ho)⟩

/-- A pool keeps its promise in all runs, unless it starts empty and may hold a single object, or
may grow so far that its capacity cannot be doubled. -/
theorem cachePool_meets_iff (initialCapacity maxCapacity : ℕ) (hle : initialCapacity ≤ maxCapacity)
    (hpos : 0 < maxCapacity) (hsize : maxCapacity < 2 ^ 64) :
    (∀ p, Reachable initialCapacity maxCapacity p → Meets maxCapacity p) ↔
      ¬ (initialCapacity = 0 ∧ maxCapacity = 1) ∧
        (initialCapacity = maxCapacity ∨ maxCapacity ≤ 2 ^ 63) := by
  constructor
  · intro hall
    constructor
    · -- half of one object is none
      rintro ⟨rfl, rfl⟩
      have hzero := (hall _ .init).refused rfl
      exact absurd hzero (by decide)
    · by_contra hbig
      rw [not_or, not_le] at hbig
      -- all objects are in use, and one of them is given back
      obtain ⟨p, hp, hlen, hone⟩ := exists_outstanding hall maxCapacity (le_refl _)
      obtain ⟨hs, hinit, hmax⟩ := hp.sound hle
      have hcount := hs.count
      have hhigh := hs.high
      obtain ⟨object, rest, hout⟩ := List.exists_cons_of_ne_nil
        (List.ne_nil_of_length_pos (by omega : 0 < p.outstanding.length))
      have hmem : object ∈ p.outstanding := by
        rw [hout]
        exact List.mem_cons_self
      have herase := List.length_erase_of_mem hmem
      have hp' := Reachable.free hp hmem
      rcases freeObject_cases p object with ⟨-, -, -, hne⟩ |
        ⟨hout', ⟨hshrink, hpool, hcap⟩ | ⟨hkeep, -⟩⟩
      · exact hne (hone object hmem)
      · -- the doubled capacity wraps, and the pool does not grow
        have hrefused : (p.freeObject object).allocateObject = none := by
          rcases allocateObject_cases (p.freeObject object) with ⟨-, hnone, -⟩ |
            ⟨_, p', -, -, -, -, -, -, ⟨hsome, -⟩ | ⟨-, hgrow, -⟩⟩
          · exact hnone
          · rw [hpool] at hsome
            omega
          · rw [newSize, freeObject_maxCapacity, hcap, sizeT] at hgrow
            split at hgrow
            · split at hgrow
              · omega
              · omega
            · omega
        have hfull := (hall _ hp').refused hrefused
        rw [hout', herase] at hfull
        omega
      · omega
  · rintro ⟨hone, hbig⟩ p hp
    obtain ⟨hs, hinit, hmax⟩ := hp.sound hle
    have hcount := hs.count
    have hlow := hs.low
    have hhigh := hs.high
    refine ⟨hcount, by omega, ?_⟩
    intro hnone
    rcases allocateObject_cases p with ⟨hpool, -, hfull | hstuck⟩ | ⟨_, _, hsome, -⟩
    · rw [hpool, List.length_nil] at hcount
      omega
    · rw [hpool, List.length_nil] at hcount
      rw [newSize, sizeT] at hstuck
      split at hstuck
      · split at hstuck
        · omega
        · omega
      · omega
    · rw [hsome] at hnone
      cases hnone

/-- `cachePool_meets_iff` for the default sizes, with blocks of one MiB. -/
theorem cachePool_meets_default :
    (∀ p, Reachable 25 50 p → Meets 50 p) ↔ ¬ (25 = 0 ∧ 50 = 1) ∧ (25 = 50 ∨ 50 ≤ 2 ^ 63) :=
  cachePool_meets_iff 25 50 (by decide) (by decide) (by decide)

/-- An empty pool for one object never gives it out. -/
theorem cachePool_single :
    ¬ ∀ initialCapacity maxCapacity : ℕ, initialCapacity ≤ maxCapacity → 0 < maxCapacity →
      maxCapacity < 2 ^ 64 →
      ∀ p, Reachable initialCapacity maxCapacity p → Meets maxCapacity p := by
  intro hall
  have hzero := (hall 0 1 (by decide) (by decide) (by decide) _ .init).refused rfl
  exact absurd hzero (by decide)

/-- Where the pool keeps its promise, it gives out an object whenever the scheduler's view of it
does. -/
theorem allocateObject_cachePool {initialCapacity maxCapacity : ℕ} {p : ObjectPool}
    (hle : initialCapacity ≤ maxCapacity) (hp : Reachable initialCapacity maxCapacity p)
    (hm : Meets maxCapacity p) {view : CachePool} (hmax : view.maxCapacity = maxCapacity)
    (hout : view.outstanding.length = p.outstanding.length) :
    p.allocateObject.isSome = view.allocateObject.isSome := by
  obtain ⟨hs, -, hpmax⟩ := hp.sound hle
  have hcount := hs.count
  have hhigh := hs.high
  have hnew := newSize_le p
  unfold CachePool.allocateObject
  split
  · rename_i hroom
    cases halloc : p.allocateObject with
    | some r => rfl
    | none =>
      have hfull := hm.refused halloc
      omega
  · rename_i hroom
    rcases allocateObject_cases p with ⟨-, hnone, -⟩ |
      ⟨_, p', -, -, -, -, -, -, ⟨hpool, -⟩ | ⟨-, hgrow, -⟩⟩
    · rw [hnone]
      rfl
    · -- there is no unused object left
      omega
    · omega

end ObjectPool

end Ltfs.Sched
