import Mathlib
import Dframework.Base.Retval
import Dframework.Lang.Number
import Dframework.Util.ArraySorted

/-!
# Host names and their cache

`Hostname::get` asks the cache for the addresses of a host, and the resolver where the cache has none
or old ones. What the resolver finds is kept in the cache, and a hit copies it back address by
address. The copy of `addCache` gives the constructor the type of the address in the place of its
length.

Results:
1. `Step.kept`: the cache keeps what the last lookup of a host found.
2. `lookup_run`: a hit answers the addresses of that lookup, cut to as many bytes as their type says.
3. `cache_hit_ne`: no hit answers what was stored.
-/

namespace Dframework

open CLib

def AF_INET : Nat := 2

def AF_INET6 : Nat := 10

/-- An address of `getaddrinfo`: a `struct sockaddr_in` or a `struct sockaddr_in6`. -/
inductive AddrInfo where
  | inet (addr : Bytes) (len : addr.length = 16)
  | inet6 (addr : Bytes) (len : addr.length = 28)

namespace AddrInfo

def family : AddrInfo → Nat
  | inet _ _ => AF_INET
  | inet6 _ _ => AF_INET6

def addr : AddrInfo → Bytes
  | inet addr _ => addr
  | inet6 addr _ => addr

end AddrInfo

/-! ## Printing an address -/

def inetNtop4 (src : Bytes) : Bytes :=
  decimal (src.getD 0 0).toNat ++ 46 :: decimal (src.getD 1 0).toNat ++
    46 :: decimal (src.getD 2 0).toNat ++ 46 :: decimal (src.getD 3 0).toNat

/-- A run of zero words. `base` is `none` for -1. -/
structure ZeroRun where
  base : Option Nat := none
  len : Nat := 0
  deriving DecidableEq, Repr

/-- `best` after `cur` has ended. -/
def betterRun (best cur : ZeroRun) : ZeroRun :=
  if best.base = none ∨ cur.len > best.len then cur else best

/-- The loop over the words that looks for the longest run of zeros. -/
def zeroRuns (i : Nat) (best cur : ZeroRun) : List Nat → ZeroRun
  | [] => if cur.base = none then best else betterRun best cur
  | w :: words =>
    if w = 0 then
      match cur.base with
      | none => zeroRuns (i + 1) best { base := some i, len := 1 } words
      | some b => zeroRuns (i + 1) best { base := some b, len := cur.len + 1 } words
    else
      match cur.base with
      | none => zeroRuns (i + 1) best cur words
      | some _ => zeroRuns (i + 1) (betterRun best cur) { cur with base := none } words

def writeWords (src : Bytes) (words : List Nat) (best : ZeroRun) (i : Nat) : List Nat → Bytes
  | [] => []
  | w :: rest =>
    match best.base with
    | none => (if i ≠ 0 then [58] else []) ++ (hexadecimal w ++ writeWords src words best (i + 1) rest)
    | some b =>
      if b ≤ i ∧ i < b + best.len then
        (if i = b then [58] else []) ++ writeWords src words best (i + 1) rest
      else
        (if i ≠ 0 then [58] else []) ++
          if i = 6 ∧ b = 0 ∧ (best.len = 6 ∨ best.len = 7 ∧ words.getD 7 0 ≠ 1 ∨
              best.len = 5 ∧ words.getD 5 0 = 0xffff) then
            inetNtop4 (src.drop 12)
          else hexadecimal w ++ writeWords src words best (i + 1) rest

/-- `Hostname::inet_ntop6`. The text is always shorter than its place. -/
def inetNtop6 (src : Bytes) : Bytes :=
  let words := (List.range 8).map fun i =>
    (src.getD (2 * i) 0).toNat * 256 + (src.getD (2 * i + 1) 0).toNat
  let best := zeroRuns 0 {} {} words
  let best := if best.base ≠ none ∧ best.len < 2 then { best with base := none } else best
  writeWords src words best 0 words ++
    match best.base with
    | some b => if b + best.len = 8 then [58] else []
    | none => []

/-- The text of an address: `sin_addr` stands behind four bytes, `sin6_addr` behind eight. -/
def AddrInfo.ip : AddrInfo → Bytes
  | inet addr _ => inetNtop4 (addr.drop 4)
  | inet6 addr _ => inetNtop6 (addr.drop 8)

/-! ## The host name -/

/-- `Hostname::Result`. `m_iSockAddrLen` is the length it was made with. -/
structure HostResult where
  ip : Bytes
  addrType : Nat
  sockAddr : Bytes
  sockAddrLen : Nat
  deriving DecidableEq, Repr

/-- The constructor of `Hostname::Result`, which copies `len` bytes. -/
def HostResult.make (ip : Bytes) (type : Nat) (addr : Bytes) (len : Nat) : HostResult :=
  ⟨ip, type, addr.take len, len⟩

structure CacheData where
  cacheTime : Nat
  host : Bytes
  resultList : List HostResult
  deriving DecidableEq, Repr

/-- The order of `CacheData`: that of the hosts. -/
def CacheData.compare (a b : CacheData) : Ordering :=
  compareChars a.host b.host

/-- The fields of `Hostname` behind `clear`, without the address it was asked for. -/
structure Hostname where
  cacheTime : Nat := 0
  resultList : List HostResult := []
  cacheList : List HostResult := []
  deriving DecidableEq, Repr

namespace Hostname

/-- What `size` and `getResult` show. -/
def answered (hn : Hostname) : List HostResult :=
  if hn.cacheTime > 0 then hn.cacheList else hn.resultList

def addCache (hn : Hostname) (result : HostResult) : Hostname :=
  { hn with
    cacheList := hn.cacheList ++
      [.make result.ip result.addrType result.sockAddr result.addrType] }

def setCacheData (hn : Hostname) (cd : CacheData) : Retval × Hostname :=
  if cd.resultList = [] then (retval .eInval, hn)
  else (none, cd.resultList.foldl addCache { hn with cacheTime := cd.cacheTime })

/-- The loop of `parse_hostbyname` over the addresses of the resolver. An address whose text is there
already is left out. -/
def addAddresses (hn : Hostname) : List AddrInfo → Hostname
  | [] => hn
  | a :: rest =>
    let result := HostResult.make a.ip a.family a.addr a.addr.length
    let hn' := if hn.resultList.any (·.ip == result.ip) then hn
      else { hn with resultList := hn.resultList ++ [result] }
    addAddresses hn' rest

/-- `Hostname::parse_hostbyname`, with the answer of the resolver. -/
def parseHostbyname (hn : Hostname) (resolved : Except Ret (List AddrInfo)) : Retval × Hostname :=
  match resolved with
  | .error r => (some r, hn)
  | .ok addresses => (none, hn.addAddresses addresses)

end Hostname

/-! ## The cache -/

/-- The constructor of `CacheData` for a host name. -/
def CacheData.make (host : Bytes) (hn : Hostname) (now : Nat) : CacheData :=
  ⟨now, host, hn.answered.map fun r => .make r.ip r.addrType r.sockAddr r.sockAddrLen⟩

/-- `Hostname::Cache`, sorted by host. -/
abbrev HostCache := List CacheData

def HostCache.append (cache : HostCache) (host : Bytes) (hn : Hostname) (now : Nat) : HostCache :=
  if hn.answered = [] then cache
  else
    let cd := CacheData.make host hn now
    ArraySorted.insert CacheData.compare cd (ArraySorted.remove CacheData.compare cd cache)

def HostCache.find (cache : HostCache) (host : Bytes) : Option CacheData :=
  (ArraySorted.index CacheData.compare ⟨0, host, []⟩ cache).bind fun i => cache[i]?

def HostCache.search (cache : HostCache) (host : Bytes) (hn : Hostname) : Retval × Hostname :=
  match cache.find host with
  | some cd => hn.setCacheData cd
  | none => (retval .eNotCacheHost, hn)

/-- A call of `Hostname::get`: the host without the blanks around it, the times that `time` answers
at the check and at the end, and the answer of the resolver. -/
structure Lookup where
  host : Bytes
  bCache : Bool
  now : Nat
  later : Nat
  resolved : Except Ret (List AddrInfo)

def CACHE_TIME_SEC : Nat := 60

/-- `Hostname::get`, which is `parse_start_l` on an empty host name. -/
def Lookup.get (l : Lookup) (cache : HostCache) : Retval × Hostname × HostCache :=
  if l.host = [] then (retval .eInval, {}, cache)
  else
    let found := if l.bCache then cache.search l.host {} else (retval .eNotCacheHost, {})
    if found.1 = none ∧ found.2.cacheTime > sizeSub l.now CACHE_TIME_SEC then (none, found.2, cache)
    else
      let cacheTime := found.2.cacheTime
      match { found.2 with cacheTime := 0 }.parseHostbyname l.resolved with
      | (none, hn) => (none, hn, cache.append l.host hn l.later)
      | (some r, hn) =>
        if cacheTime > 0 then (none, { hn with cacheTime }, cache) else (some r, hn, cache)

/-! ## Results and their copies -/

/-- The copy that a hit makes of an address. -/
def HostResult.cut (r : HostResult) : HostResult :=
  .make r.ip r.addrType r.sockAddr r.addrType

/-- An address has the length of its type. -/
def HostResult.WellSized (r : HostResult) : Prop :=
  (r.addrType = AF_INET ∧ r.sockAddrLen = 16 ∨ r.addrType = AF_INET6 ∧ r.sockAddrLen = 28) ∧
    r.sockAddr.length = r.sockAddrLen

theorem wellSized_make (a : AddrInfo) :
    (HostResult.make a.ip a.family a.addr a.addr.length).WellSized := by
  cases a with
  | inet addr len => exact ⟨Or.inl ⟨rfl, len⟩, by simp [HostResult.make, AddrInfo.addr]⟩
  | inet6 addr len => exact ⟨Or.inr ⟨rfl, len⟩, by simp [HostResult.make, AddrInfo.addr]⟩

/-- The copy that the cache keeps of an address is the address. -/
theorem make_self {r : HostResult} (h : r.WellSized) :
    HostResult.make r.ip r.addrType r.sockAddr r.sockAddrLen = r := by
  obtain ⟨ip, type, addr, len⟩ := r
  rw [HostResult.make, List.take_of_length_le h.2.le]

/-- The copy that a hit makes is another one. -/
theorem cut_ne {r : HostResult} (h : r.WellSized) : r.cut ≠ r := by
  intro heq
  have hlen : r.addrType = r.sockAddrLen := congrArg HostResult.sockAddrLen heq
  rcases h.1 with ⟨htype, hsize⟩ | ⟨htype, hsize⟩ <;> rw [htype, hsize] at hlen <;>
    exact absurd hlen (by decide)

theorem map_cut_ne {l : List HostResult} (hne : l ≠ []) (h : ∀ r ∈ l, r.WellSized) :
    l.map HostResult.cut ≠ l := by
  obtain ⟨r, rest, rfl⟩ := List.exists_cons_of_ne_nil hne
  intro heq
  exact cut_ne (h r List.mem_cons_self) (List.cons.inj heq).1

namespace Hostname

theorem foldl_addCache (l : List HostResult) (hn : Hostname) :
    l.foldl addCache hn = { hn with cacheList := hn.cacheList ++ l.map HostResult.cut } := by
  induction l generalizing hn with
  | nil => simp
  | cons r l ih =>
    rw [List.foldl_cons, ih]
    simp [addCache, HostResult.cut]

/-- The addresses of the resolver are all well sized. -/
theorem addAddresses_wellSized {hn : Hostname} (h : ∀ r ∈ hn.resultList, r.WellSized)
    (addresses : List AddrInfo) : ∀ r ∈ (hn.addAddresses addresses).resultList, r.WellSized := by
  induction addresses generalizing hn with
  | nil => exact h
  | cons a rest ih =>
    rw [addAddresses]
    refine ih ?_
    split_ifs
    · exact h
    · intro r hr
      rcases List.mem_append.mp hr with hr | hr
      · exact h r hr
      · rw [List.mem_singleton.mp hr]
        exact wellSized_make a

theorem addAddresses_cacheTime (hn : Hostname) (addresses : List AddrInfo) :
    (hn.addAddresses addresses).cacheTime = hn.cacheTime := by
  induction addresses generalizing hn with
  | nil => rfl
  | cons a rest ih =>
    rw [addAddresses, ih]
    split_ifs <;> rfl

end Hostname

/-! ## The cache -/

instance : Std.TransCmp CacheData.compare where
  eq_swap {a b} := @Std.OrientedCmp.eq_swap _ compareChars _ a.host b.host
  isLE_trans {a b c} := @Std.TransCmp.isLE_trans _ compareChars _ a.host b.host c.host

namespace HostCache

variable {cache : HostCache} {host : Bytes}

/-- The entry that is found is one of the host. -/
theorem find_mem (hs : ArraySorted.Sorted CacheData.compare cache) {cd : CacheData}
    (h : cache.find host = some cd) : cd ∈ cache ∧ cd.host = host := by
  rw [find, Option.bind_eq_some_iff] at h
  obtain ⟨i, hi, hget⟩ := h
  obtain ⟨x, hx, heq⟩ := (ArraySorted.index_finds hs _).1 i hi
  obtain rfl : x = cd := Option.some.inj (hx.symm.trans hget)
  have hhost : compareChars host x.host = .eq := heq
  exact ⟨List.mem_of_getElem? hget, (Std.LawfulEqCmp.eq_of_compare hhost).symm⟩

/-- Without the entry of a host the cache has the others, and none of that host. -/
theorem remove_spec (hs : ArraySorted.Sorted CacheData.compare cache)
    (hn : (cache.map CacheData.host).Nodup) (cd : CacheData) :
    ArraySorted.Sorted CacheData.compare (ArraySorted.remove CacheData.compare cd cache) ∧
    (ArraySorted.remove CacheData.compare cd cache).Sublist cache ∧
    ∀ x ∈ ArraySorted.remove CacheData.compare cd cache, x.host ≠ cd.host := by
  obtain ⟨hfound, hnone⟩ := ArraySorted.index_finds hs cd
  rw [ArraySorted.remove]
  rcases hi : ArraySorted.index CacheData.compare cd cache with _ | i
  · refine ⟨hs, List.Sublist.refl _, fun x hx hhost => hnone hi x hx ?_⟩
    show compareChars cd.host x.host = .eq
    rw [hhost]
    exact Std.ReflCmp.compare_self
  · obtain ⟨y, hy, heq⟩ := hfound i hi
    have hhost : compareChars cd.host y.host = .eq := heq
    have hcd : cd.host = y.host := Std.LawfulEqCmp.eq_of_compare hhost
    refine ⟨hs.eraseIdx i, List.eraseIdx_sublist _ _, fun x hx => ?_⟩
    obtain ⟨j, hj, hx⟩ := List.mem_eraseIdx_iff_getElem?.mp hx
    rw [hcd]
    intro hsame
    have hpos : j = i := by
      have hlt : j < (cache.map CacheData.host).length := by
        rw [List.length_map]
        exact (List.getElem?_eq_some_iff.mp hx).1
      refine (List.getElem?_inj hlt hn).mp ?_
      rw [List.getElem?_map, List.getElem?_map, hx, hy]
      exact congrArg some hsame
    exact hj hpos

end HostCache

/-! ## Runs -/

/-- The cache, and the addresses that the last lookup of a host found. -/
structure HostWorld where
  cache : HostCache := []
  log : Bytes → Option (List HostResult) := fun _ => none

/-- The answer comes from the cache. -/
def FromCache (r : Retval × Hostname × HostCache) : Prop :=
  r.1 = none ∧ r.2.1.cacheTime > 0

/-- The resolver was asked and its addresses were stored. -/
def Fresh (r : Retval × Hostname × HostCache) : Prop :=
  r.1 = none ∧ r.2.1.cacheTime = 0 ∧ r.2.1.answered ≠ []

instance (r : Retval × Hostname × HostCache) : Decidable (Fresh r) :=
  inferInstanceAs (Decidable (_ ∧ _ ∧ _))

def Lookup.step (w : HostWorld) (l : Lookup) : HostWorld :=
  { cache := (l.get w.cache).2.2
    log := if Fresh (l.get w.cache) then Function.update w.log l.host (some (l.get w.cache).2.1.answered)
      else w.log }

/-- The cache keeps what the last lookup of a host found. -/
structure Kept (w : HostWorld) : Prop where
  sorted : ArraySorted.Sorted CacheData.compare w.cache
  hosts : (w.cache.map CacheData.host).Nodup
  stored : ∀ cd ∈ w.cache, w.log cd.host = some cd.resultList
  nonempty : ∀ cd ∈ w.cache, cd.resultList ≠ []
  sized : ∀ cd ∈ w.cache, ∀ r ∈ cd.resultList, r.WellSized

theorem Kept.empty : Kept {} where
  sorted := List.Pairwise.nil
  hosts := List.nodup_nil
  stored := fun _ h => absurd h List.not_mem_nil
  nonempty := fun _ h => absurd h List.not_mem_nil
  sized := fun _ h => absurd h List.not_mem_nil

/-- What a search leaves in an object without addresses: nothing, or the copies of an entry. -/
theorem HostCache.search_cases {cache : HostCache} (host : Bytes)
    (hs : ArraySorted.Sorted CacheData.compare cache) (hne : ∀ cd ∈ cache, cd.resultList ≠ []) :
    (cache.search host {}).2 = {} ∨ ∃ cd ∈ cache, cd.host = host ∧ (cache.search host {}).2 =
      { cacheTime := cd.cacheTime, cacheList := cd.resultList.map HostResult.cut } := by
  rw [HostCache.search]
  rcases hf : cache.find host with _ | cd
  · exact Or.inl rfl
  · obtain ⟨hmem, hcd⟩ := HostCache.find_mem hs hf
    refine Or.inr ⟨cd, hmem, hcd, ?_⟩
    simp only [Hostname.setCacheData, if_neg (hne cd hmem), Hostname.foldl_addCache, List.nil_append]

/-- What a lookup can do: fail, answer from the entry of the host, or ask the resolver. -/
theorem Lookup.get_cases {cache : HostCache} (l : Lookup)
    (hs : ArraySorted.Sorted CacheData.compare cache) (hne : ∀ cd ∈ cache, cd.resultList ≠ []) :
    ((l.get cache).1 ≠ none ∧ (l.get cache).2.2 = cache) ∨
    (∃ cd ∈ cache, cd.host = l.host ∧ (l.get cache).1 = none ∧
      (l.get cache).2.1.answered = cd.resultList.map HostResult.cut ∧
      0 < (l.get cache).2.1.cacheTime ∧ (l.get cache).2.2 = cache) ∨
    ((l.get cache).1 = none ∧ (l.get cache).2.1.cacheTime = 0 ∧
      (∀ r ∈ (l.get cache).2.1.answered, r.WellSized) ∧
      (l.get cache).2.2 = cache.append l.host (l.get cache).2.1 l.later) := by
  by_cases hhost : l.host = []
  · refine Or.inl ?_
    rw [Lookup.get, if_pos hhost]
    exact ⟨by simp, rfl⟩
  obtain ⟨found, hfound⟩ : ∃ found, found =
      (if l.bCache then cache.search l.host {} else (retval .eNotCacheHost, {})) := ⟨_, rfl⟩
  have hsearch : found.2 = {} ∨ ∃ cd ∈ cache, cd.host = l.host ∧
      found.2 = { cacheTime := cd.cacheTime, cacheList := cd.resultList.map HostResult.cut } := by
    rw [hfound]
    split_ifs
    · exact HostCache.search_cases l.host hs hne
    · exact Or.inl rfl
  have hresult : found.2.resultList = [] := by
    rcases hsearch with h | ⟨cd, -, -, h⟩ <;> rw [h]
  -- an object with a time has the copies of the entry
  have hhit : 0 < found.2.cacheTime → ∃ cd ∈ cache, cd.host = l.host ∧
      found.2.answered = cd.resultList.map HostResult.cut := by
    intro hpos
    rcases hsearch with h | ⟨cd, hmem, hcd, h⟩
    · rw [h] at hpos
      exact absurd hpos (lt_irrefl 0)
    · refine ⟨cd, hmem, hcd, ?_⟩
      rw [Hostname.answered, if_pos hpos, h]
  have hget : l.get cache = if found.1 = none ∧ found.2.cacheTime > sizeSub l.now CACHE_TIME_SEC then
      (none, found.2, cache)
    else
      match { found.2 with cacheTime := 0 }.parseHostbyname l.resolved with
      | (none, hn) => (none, hn, cache.append l.host hn l.later)
      | (some r, hn) =>
        if found.2.cacheTime > 0 then (none, { hn with cacheTime := found.2.cacheTime }, cache)
        else (some r, hn, cache) := by
    rw [Lookup.get, if_neg hhost, ← hfound]
  by_cases hnew : found.1 = none ∧ found.2.cacheTime > sizeSub l.now CACHE_TIME_SEC
  · rw [if_pos hnew] at hget
    obtain ⟨cd, hmem, hcd, hans⟩ := hhit (Nat.zero_lt_of_lt hnew.2)
    refine Or.inr (Or.inl ⟨cd, hmem, hcd, ?_⟩)
    rw [hget]
    exact ⟨rfl, hans, Nat.zero_lt_of_lt hnew.2, rfl⟩
  rw [if_neg hnew] at hget
  rcases hres : l.resolved with r | addresses
  · -- the resolver fails, and an old entry is better than none
    rw [hres] at hget
    by_cases hstale : found.2.cacheTime > 0
    · have hold : l.get cache = (none, found.2, cache) := hget.trans (if_pos hstale)
      obtain ⟨cd, hmem, hcd, hans⟩ := hhit hstale
      refine Or.inr (Or.inl ⟨cd, hmem, hcd, ?_⟩)
      rw [hold]
      exact ⟨rfl, hans, hstale, rfl⟩
    · have hfail : l.get cache = (some r, { found.2 with cacheTime := 0 }, cache) :=
        hget.trans (if_neg hstale)
      refine Or.inl ?_
      rw [hfail]
      exact ⟨by simp, rfl⟩
  · rw [hres] at hget
    have hfresh : l.get cache = (none, { found.2 with cacheTime := 0 }.addAddresses addresses,
        cache.append l.host ({ found.2 with cacheTime := 0 }.addAddresses addresses) l.later) := hget
    have htime := Hostname.addAddresses_cacheTime { found.2 with cacheTime := 0 } addresses
    refine Or.inr (Or.inr ?_)
    rw [hfresh]
    refine ⟨rfl, htime, fun r hr => ?_, rfl⟩
    rw [Hostname.answered, if_neg (by rw [htime]; exact lt_irrefl 0)] at hr
    refine Hostname.addAddresses_wellSized ?_ addresses r hr
    simp [hresult]

/-- New addresses take the place of the old ones. -/
theorem Kept.append {w : HostWorld} (h : Kept w) {host : Bytes} {hn : Hostname} {now : Nat}
    (hne : hn.answered ≠ []) (hsized : ∀ r ∈ hn.answered, r.WellSized) :
    Kept
      { cache := ArraySorted.insert CacheData.compare (CacheData.make host hn now)
          (ArraySorted.remove CacheData.compare (CacheData.make host hn now) w.cache)
        log := Function.update w.log host (some hn.answered) } := by
  obtain ⟨hsorted, hsub, hothers⟩ :=
    HostCache.remove_spec h.sorted h.hosts (CacheData.make host hn now)
  generalize hrest : ArraySorted.remove CacheData.compare (CacheData.make host hn now) w.cache = rest
    at hsorted hsub hothers
  have hlist : (CacheData.make host hn now).resultList = hn.answered :=
    (List.map_congr_left fun r hr => make_self (hsized r hr)).trans (List.map_id _)
  have hperm : (ArraySorted.insert CacheData.compare (CacheData.make host hn now) rest).Perm
      (CacheData.make host hn now :: rest) := List.perm_insertIdx _ _ (ArraySorted.insertId_le _ _ _)
  have hmem : ∀ cd ∈ ArraySorted.insert CacheData.compare (CacheData.make host hn now) rest,
      cd = CacheData.make host hn now ∨ cd ∈ w.cache ∧ cd.host ≠ host := by
    intro cd hcd
    rcases List.mem_cons.mp (hperm.mem_iff.mp hcd) with heq | hold
    · exact Or.inl heq
    · exact Or.inr ⟨hsub.subset hold, hothers cd hold⟩
  constructor
  · exact ArraySorted.insert_sorted hsorted _
  · rw [(hperm.map CacheData.host).nodup_iff, List.map_cons, List.nodup_cons]
    refine ⟨fun hin => ?_, h.hosts.sublist (hsub.map _)⟩
    obtain ⟨x, hx, heq⟩ := List.mem_map.mp hin
    exact hothers x hx heq
  · intro cd hcd
    rcases hmem cd hcd with rfl | ⟨hold, hhost⟩
    · rw [hlist]
      exact Function.update_self _ _ _
    · show Function.update w.log host (some hn.answered) cd.host = some cd.resultList
      rw [Function.update_of_ne hhost]
      exact h.stored cd hold
  · intro cd hcd
    rcases hmem cd hcd with rfl | ⟨hold, -⟩
    · rw [hlist]
      exact hne
    · exact h.nonempty cd hold
  · intro cd hcd
    rcases hmem cd hcd with rfl | ⟨hold, -⟩
    · rw [hlist]
      exact hsized
    · exact h.sized cd hold

/-- A lookup keeps the cache and the log together. -/
theorem Kept.step {w : HostWorld} (h : Kept w) (l : Lookup) : Kept (l.step w) := by
  rcases l.get_cases h.sorted h.nonempty with
    ⟨hfail, hcache⟩ | ⟨cd, -, -, -, -, hpos, hcache⟩ | ⟨hok, htime, hsized, hcache⟩
  · have hfresh : ¬ Fresh (l.get w.cache) := fun hf => hfail hf.1
    rw [Lookup.step, if_neg hfresh, hcache]
    exact h
  · have hfresh : ¬ Fresh (l.get w.cache) := fun hf => by
      rw [hf.2.1] at hpos
      exact absurd hpos (lt_irrefl 0)
    rw [Lookup.step, if_neg hfresh, hcache]
    exact h
  · by_cases hnone : (l.get w.cache).2.1.answered = []
    · have hfresh : ¬ Fresh (l.get w.cache) := fun hf => hf.2.2 hnone
      rw [Lookup.step, if_neg hfresh, hcache, HostCache.append, if_pos hnone]
      exact h
    · rw [Lookup.step, if_pos ⟨hok, htime, hnone⟩, hcache, HostCache.append, if_neg hnone]
      exact h.append hnone hsized

theorem Kept.run (lookups : List Lookup) : Kept (lookups.foldl Lookup.step {}) := by
  refine List.foldlRecOn lookups Lookup.step Kept.empty fun w h l _ => ?_
  exact h.step l

/-- A hit answers what the last lookup of the host found, cut to as many bytes as the types of the
addresses say. -/
theorem lookup_run (lookups : List Lookup) (l : Lookup)
    (hit : FromCache (l.get (lookups.foldl Lookup.step {}).cache)) :
    ∃ stored, (lookups.foldl Lookup.step {}).log l.host = some stored ∧ stored ≠ [] ∧
      (∀ r ∈ stored, r.WellSized) ∧
      (l.get (lookups.foldl Lookup.step {}).cache).2.1.answered = stored.map HostResult.cut := by
  have h := Kept.run lookups
  obtain ⟨hok, hpos⟩ := hit
  rcases l.get_cases h.sorted h.nonempty with
    ⟨hfail, -⟩ | ⟨cd, hmem, hhost, -, hans, -, -⟩ | ⟨-, htime, -, -⟩
  · exact absurd hok hfail
  · refine ⟨cd.resultList, ?_, h.nonempty cd hmem, h.sized cd hmem, hans⟩
    rw [← hhost]
    exact h.stored cd hmem
  · rw [htime] at hpos
    exact absurd hpos (lt_irrefl 0)

/-- In every run, the list that a hit answers is not the one that was stored. It has the same texts
and types in the same order. -/
theorem cache_hit_ne (lookups : List Lookup) (l : Lookup)
    (hit : FromCache (l.get (lookups.foldl Lookup.step {}).cache)) :
    ∃ stored, (lookups.foldl Lookup.step {}).log l.host = some stored ∧
      (l.get (lookups.foldl Lookup.step {}).cache).2.1.answered ≠ stored ∧
      (l.get (lookups.foldl Lookup.step {}).cache).2.1.answered.map (fun r => (r.ip, r.addrType)) =
        stored.map fun r => (r.ip, r.addrType) := by
  obtain ⟨stored, hlog, hne, hsized, hans⟩ := lookup_run lookups l hit
  refine ⟨stored, hlog, ?_, ?_⟩
  · rw [hans]
    exact map_cut_ne hne hsized
  · rw [hans, List.map_map]
    rfl

/-- Port 0 of 127.0.0.1. -/
def loopback : AddrInfo :=
  .inet [2, 0, 0, 0, 127, 0, 0, 1, 0, 0, 0, 0, 0, 0, 0, 0] rfl

/-- A first lookup at one time, and a second one a little later. -/
def firstLookup : Lookup :=
  { host := bytes "localhost", bCache := true, now := 1000, later := 1000, resolved := .ok [loopback] }

def secondLookup : Lookup :=
  { firstLookup with now := 1010, later := 1010 }

theorem cache_hit_ne_localhost :
    ∃ stored, ([firstLookup].foldl Lookup.step {}).log secondLookup.host = some stored ∧
      (secondLookup.get ([firstLookup].foldl Lookup.step {}).cache).2.1.answered ≠ stored :=
  have hit : FromCache (secondLookup.get ([firstLookup].foldl Lookup.step {}).cache) :=
    ⟨by decide, by decide⟩
  have ⟨stored, hlog, hne, _⟩ := cache_hit_ne [firstLookup] secondLookup hit
  ⟨stored, hlog, hne⟩

/-- The second lookup of `localhost` answers two of the sixteen bytes of its address. -/
theorem not_cache_hit :
    (secondLookup.get ([firstLookup].foldl Lookup.step {}).cache).2.1.answered =
      [⟨bytes "127.0.0.1", AF_INET, [2, 0], 2⟩] ∧
    ([firstLookup].foldl Lookup.step {}).log secondLookup.host =
      some [⟨bytes "127.0.0.1", AF_INET, loopback.addr, 16⟩] := by
  constructor <;> decide

end Dframework
