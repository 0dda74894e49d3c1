/-
What else happens to a cache (cache.c).

Beside the operations of `CacheOp`, an entry may be unlinked directly: when its response is
not stored after all, and when the resource has been changed by another method.  The runs
of these actions keep what the runs of the operations keep.
-/
import SmartHAProxy.Cache.Exact
import SmartHAProxy.Http.Basic

namespace SmartHAProxy

/-- What `http_action_store_cache` looks at first: whether the response comes from the cache
itself, and of the request the version and the method. -/
structure CacheTxn where
  fromCache : Bool
  ver11 : Bool
  meth : HttpMeth
  status : ℤ

def HttpMeth.isUnsafe : HttpMeth → Bool
  | .options | .get | .head | .trace => false
  | _ => true

inductive CacheAct
  | op (op : CacheOp)
  | remove (e : ℕ)
  | store (txn : CacheTxn) (hash : CacheHash)

namespace CacheSys

/-- `eb32_delete` on an entry, as in `disable_cache_entry`. -/
def remove (s : CacheSys) (e : ℕ) : CacheSys :=
  ⟨s.cache.unlink e, s.stored.filter (· ≠ e)⟩

/-- `http_action_store_cache`.  For a GET, what follows is an insert or nothing. -/
def httpActionStoreCache (s : CacheSys) (txn : CacheTxn) (hash : CacheHash) : CacheSys :=
  if txn.fromCache then s
  else if ¬ txn.ver11 then s
  else if txn.meth ≠ .get then
    if 200 ≤ txn.status ∧ txn.status < 400 then
      if txn.meth.isUnsafe then
        match s.cache.entryExist hash with
        | (c, none) => { s with cache := c }
        | (c, some old) => remove { s with cache := c } old
      else s
    else s
  else s

def act (s : CacheSys) : CacheAct → CacheSys
  | .op op => s.step op
  | .remove e => s.remove e
  | .store txn hash => s.httpActionStoreCache txn hash

def run (s : CacheSys) (acts : List CacheAct) : CacheSys := acts.foldl act s

@[simp] theorem run_nil (s : CacheSys) : s.run [] = s := rfl

@[simp] theorem run_cons (s : CacheSys) (a : CacheAct) (acts : List CacheAct) :
    s.run (a :: acts) = (s.act a).run acts := rfl

/-! ### What every run keeps -/

variable {s : CacheSys}

theorem Good.remove (h : s.Good) (e : ℕ) : (s.remove e).Good :=
  h.delete (Cache.prunes_unlink (.inr rfl)) (Cache.not_mem_unlink _ _)

theorem Good.httpActionStoreCache (h : s.Good) (txn : CacheTxn) (hash : CacheHash) :
    (s.httpActionStoreCache txn hash).Good := by
  have hprune := s.cache.prunes_entryExist hash
  rw [CacheSys.httpActionStoreCache]
  rcases hrun : s.cache.entryExist hash with ⟨c, old⟩
  rw [hrun] at hprune
  have hgood := h.prunes hprune
  rcases old with - | old
  · split_ifs <;> first | exact h | exact hgood
  · split_ifs <;> first | exact h | exact hgood.remove old

theorem Good.act (h : s.Good) (a : CacheAct) : (s.act a).Good := by
  cases a with
  | op op => exact h.step op
  | remove e => exact h.remove e
  | store txn hash => exact h.httpActionStoreCache txn hash

theorem Good.run (h : s.Good) (acts : List CacheAct) : (s.run acts).Good := by
  induction acts generalizing s with
  | nil => exact h
  | cons a acts ih => exact ih (h.act a)

end CacheSys

end SmartHAProxy
