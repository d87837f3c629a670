import NeForce.HttpCache

/-! # What the cache serves

Every entry comes from the answer to an earlier visit with its key. The key has the method and the path only, so that an
entry answers a request with another query string as well; where the visits of a run agree on the query string, write
the `Cache-Control` field as the filter looks for it, and the handlers leave the request alone, a response from the
cache is an earlier response to the same request. -/

namespace NeForce.HttpCache

variable {cfg : Config}

/-! ### Entries -/

/-- The entry under `key` was stored for an answer `h` to `u`. -/
structure StoredFor (cfg : Config) (key : Bytes) (c : CachedResponse) (u : Visit) (h : Handled) : Prop where
  handled : u.handled = some h
  key : key = buildKey u.request.method u.request.path
  method : cfg.cacheOnlyGet = true ∨ 0x3A ∉ u.request.method
  watched : passes cfg u.request.method = false
  plain : Plain h.response
  allowed : ∀ w ∈ uncacheable, ¬ w <:+: h.response.header (ascii "Cache-Control")
  status : c.status = h.response.status
  statusMessage : c.statusMessage = h.response.statusMessage
  headers : c.headers = h.response.headers
  body : c.body = h.response.body
  etag : c.etag = generateEtag cfg h.response.body
  cachedAt : c.cachedAt = h.clock.now
  maxAge : c.maxAge = cfg.defaultMaxAge

structure Sound (cfg : Config) (answered : List Visit) (kv : Bytes × Entry) : Prop where
  origin : ∃ u ∈ answered, ∃ h, StoredFor cfg kv.1 kv.2.response u h
  access : kv.2.lastAccessMs < 2 ^ 63

theorem Sound.mono {answered answered' : List Visit} {kv : Bytes × Entry} (h : Sound cfg answered kv)
    (hsub : answered ⊆ answered') : Sound cfg answered' kv := by
  obtain ⟨u, hu, ho⟩ := h.origin
  exact ⟨⟨u, hsub hu, ho⟩, h.access⟩

theorem Sound.key_ne_nil {answered : List Visit} {kv : Bytes × Entry} (h : Sound cfg answered kv) : kv.1 ≠ [] := by
  obtain ⟨u, _, _, ho⟩ := h.origin
  rw [ho.key]
  simp [buildKey]

theorem steadyMs_lt (t : Clock) : t.steadyMs < 2 ^ 63 :=
  (Nat.div_le_self _ _).trans_lt t.steadyNs_lt

theorem mem_of_lookup {entries : Entries} {key : Bytes} {e : Entry} (h : entries.lookup key = some e) :
    (key, e) ∈ entries := by
  induction entries with
  | nil => simp at h
  | cons kv entries ih =>
      rw [List.lookup_cons] at h
      split at h
      · rename_i heq
        obtain rfl : key = kv.1 := by simpa using heq
        obtain rfl := Option.some.inj h
        exact List.mem_cons_self
      · exact List.mem_cons_of_mem _ (ih h)

theorem mem_store {entries : Entries} {key : Bytes} {e : Entry} {kv : Bytes × Entry} (h : kv ∈ store entries key e) :
    kv = (key, e) ∨ kv ∈ entries := by
  rcases List.mem_cons.mp h with rfl | h
  · exact .inl rfl
  · exact .inr (List.mem_filter.mp h).1

theorem length_store_le (entries : Entries) (key : Bytes) (e : Entry) :
    (store entries key e).length ≤ entries.length + 1 := by
  rw [store, List.length_cons]
  exact Nat.succ_le_succ (List.length_filter_le _ _)

/-- To store under a key that is there replaces its entry. -/
theorem length_store_of_mem {entries : Entries} {key : Bytes} {e e' : Entry} (h : (key, e') ∈ entries) :
    (store entries key e).length ≤ entries.length := by
  have : (entries.filter (·.1 ≠ key)).length < entries.length :=
    List.length_filter_lt_length_iff_exists.mpr ⟨(key, e'), h, by simp⟩
  rw [store, List.length_cons]
  omega

/-! ### Eviction -/

/-- The oldest entry of a scan, where one is older than the bound. -/
theorem foldl_oldest (l : Entries) (acc : ℕ × Bytes) :
    l.foldl (fun acc kv => if kv.2.lastAccessMs < acc.1 then (kv.2.lastAccessMs, kv.1) else acc) acc = acc ∨
      ∃ kv ∈ l, l.foldl (fun acc kv => if kv.2.lastAccessMs < acc.1 then (kv.2.lastAccessMs, kv.1) else acc) acc =
        (kv.2.lastAccessMs, kv.1) := by
  induction l generalizing acc with
  | nil => exact .inl rfl
  | cons kv l ih =>
      rw [List.foldl_cons]
      by_cases h : kv.2.lastAccessMs < acc.1
      · rw [if_pos h]
        rcases ih (kv.2.lastAccessMs, kv.1) with heq | ⟨kv', hmem, heq⟩
        · exact .inr ⟨kv, List.mem_cons_self, heq⟩
        · exact .inr ⟨kv', List.mem_cons_of_mem _ hmem, heq⟩
      · rw [if_neg h]
        rcases ih acc with heq | ⟨kv', hmem, heq⟩
        · exact .inl heq
        · exact .inr ⟨kv', List.mem_cons_of_mem _ hmem, heq⟩

theorem foldl_oldest_le (l : Entries) (acc : ℕ × Bytes) :
    (l.foldl (fun acc kv => if kv.2.lastAccessMs < acc.1 then (kv.2.lastAccessMs, kv.1) else acc) acc).1 ≤ acc.1 ∧
      ∀ kv ∈ l, (l.foldl (fun acc kv => if kv.2.lastAccessMs < acc.1 then (kv.2.lastAccessMs, kv.1) else acc) acc).1 ≤
        kv.2.lastAccessMs := by
  induction l generalizing acc with
  | nil => exact ⟨le_rfl, by simp⟩
  | cons kv l ih =>
      rw [List.foldl_cons]
      by_cases h : kv.2.lastAccessMs < acc.1
      · rw [if_pos h]
        obtain ⟨h1, h2⟩ := ih (kv.2.lastAccessMs, kv.1)
        refine ⟨h1.trans h.le, fun kv' hmem => ?_⟩
        rcases List.mem_cons.mp hmem with rfl | hmem
        · exact h1
        · exact h2 kv' hmem
      · rw [if_neg h]
        obtain ⟨h1, h2⟩ := ih acc
        refine ⟨h1, fun kv' hmem => ?_⟩
        rcases List.mem_cons.mp hmem with rfl | hmem
        · exact h1.trans (not_lt.mp h)
        · exact h2 kv' hmem

theorem mem_evictLru {entries : Entries} {kv : Bytes × Entry} (h : kv ∈ evictLru cfg entries) : kv ∈ entries := by
  rw [evictLru] at h
  split at h
  · exact h
  · exact (List.mem_filter.mp h).1

theorem length_evictLru {entries : Entries} (hne : entries ≠ [])
    (h : ∀ kv ∈ entries, kv.1 ≠ [] ∧ kv.2.lastAccessMs < 2 ^ 63) : (evictLru cfg entries).length < entries.length := by
  obtain ⟨kv₀, hkv₀⟩ := List.exists_mem_of_ne_nil _ hne
  have hscan : ∀ kv, kv ∈ cfg.scan entries ↔ kv ∈ entries := fun kv => (cfg.scan_perm entries).mem_iff
  have hle := (foldl_oldest_le (cfg.scan entries) (2 ^ 64 - 1, [])).2 kv₀ ((hscan kv₀).mpr hkv₀)
  have hlt := (h kv₀ hkv₀).2
  rw [evictLru]
  rcases foldl_oldest (cfg.scan entries) (2 ^ 64 - 1, []) with heq | ⟨kv, hmem, heq⟩
  · rw [heq] at hle
    dsimp only at hle
    omega
  · have hkv := (hscan kv).mp hmem
    rw [heq]
    dsimp only
    rw [if_neg (h kv hkv).1]
    exact List.length_filter_lt_length_iff_exists.mpr ⟨kv, hkv, by simp⟩

/-! ### The invariant -/

structure Inv (cfg : Config) (s : State) : Prop where
  sound : ∀ kv ∈ s.entries, Sound cfg s.answered kv
  small : s.entries.length ≤ cfg.maxEntries

theorem get_sound {answered : List Visit} {entries : Entries} (h : ∀ kv ∈ entries, Sound cfg answered kv) (key : Bytes)
    (t : Clock) : (∀ kv ∈ (get entries key t).1, Sound cfg answered kv) ∧
      (get entries key t).1.length ≤ entries.length ∧ ∀ c, (get entries key t).2 = some c →
        age t.now c.cachedAt < c.maxAge ∧ ∃ u ∈ answered, ∃ h, StoredFor cfg key c u h := by
  rw [get]
  split
  · exact ⟨h, le_rfl, by simp⟩
  · rename_i e he
    have hmem := mem_of_lookup he
    split
    · exact ⟨h, le_rfl, by simp⟩
    · rename_i hage
      refine ⟨fun kv hkv => ?_, length_store_of_mem hmem, fun c hc => ?_⟩
      · rcases mem_store hkv with rfl | hkv
        · exact ⟨(h _ hmem).origin, steadyMs_lt t⟩
        · exact h kv hkv
      · obtain rfl := Option.some.inj hc
        exact ⟨not_le.mp hage, (h _ hmem).origin⟩

theorem preFilter_sound {answered : List Visit} {entries : Entries} (h : ∀ kv ∈ entries, Sound cfg answered kv)
    (v : Visit) : (∀ kv ∈ (preFilter cfg entries v).1, Sound cfg answered kv) ∧
      (preFilter cfg entries v).1.length ≤ entries.length := by
  have hget := get_sound h (buildKey v.request.method v.request.path) v.clock
  rw [preFilter]
  split
  · exact ⟨h, le_rfl⟩
  · generalize get entries (buildKey v.request.method v.request.path) v.clock = g at hget
    obtain ⟨entries', c⟩ := g
    cases c with
    | none => exact ⟨hget.1, hget.2.1⟩
    | some c =>
        dsimp only
        split
        · exact ⟨hget.1, hget.2.1⟩
        · exact ⟨hget.1, hget.2.1⟩

theorem put_sound {answered : List Visit} {entries : Entries} (hmax : 1 ≤ cfg.maxEntries)
    (h : ∀ kv ∈ entries, Sound cfg answered kv) (hlen : entries.length ≤ cfg.maxEntries) {key : Bytes}
    {response : Response} {t : Clock} {maxAge : ℤ}
    (hnew : ∀ c : CachedResponse, c.status = response.status → c.statusMessage = response.statusMessage →
      c.headers = response.headers → c.body = response.body → c.etag = generateEtag cfg response.body →
      c.cachedAt = t.now → c.maxAge = (if 0 < maxAge then maxAge else cfg.defaultMaxAge) →
      ∃ u ∈ answered, ∃ h, StoredFor cfg key c u h) :
    (∀ kv ∈ put cfg entries key response t maxAge, Sound cfg answered kv) ∧
      (put cfg entries key response t maxAge).length ≤ cfg.maxEntries := by
  rw [put]
  split
  · exact ⟨h, hlen⟩
  · dsimp only
    have hevict : (∀ kv ∈ (if cfg.maxEntries ≤ entries.length then evictLru cfg entries else entries),
        Sound cfg answered kv) ∧
        (if cfg.maxEntries ≤ entries.length then evictLru cfg entries else entries).length < cfg.maxEntries := by
      split
      · rename_i hfull
        have hne : entries ≠ [] := by
          rintro rfl
          simp at hfull
          omega
        have : (evictLru cfg entries).length < entries.length :=
          length_evictLru hne fun kv hkv => ⟨(h kv hkv).key_ne_nil, (h kv hkv).access⟩
        exact ⟨fun kv hkv => h kv (mem_evictLru hkv), by omega⟩
      · exact ⟨h, by omega⟩
    refine ⟨fun kv hkv => ?_, ?_⟩
    · rcases mem_store hkv with rfl | hkv
      · exact ⟨hnew _ rfl rfl rfl rfl rfl rfl rfl, steadyMs_lt t⟩
      · exact hevict.1 kv hkv
    · exact (length_store_le _ _ _).trans hevict.2

theorem postFilter_sound {answered : List Visit} {entries : Entries} (hmax : 1 ≤ cfg.maxEntries)
    (h : ∀ kv ∈ entries, Sound cfg answered kv) (hlen : entries.length ≤ cfg.maxEntries) {v : Visit} {hd : Handled}
    (hv : v ∈ answered) (hh : v.handled = some hd)
    (hm : hd.request.method = v.request.method) (hp : hd.request.path = v.request.path)
    (hc : cfg.cacheOnlyGet = true ∨ 0x3A ∉ v.request.method) (hplain : Plain hd.response) :
    (∀ kv ∈ postFilter cfg entries hd, Sound cfg answered kv) ∧
      (postFilter cfg entries hd).length ≤ cfg.maxEntries := by
  rw [postFilter]
  split
  · exact ⟨h, hlen⟩
  · rename_i hpass
    split
    · exact ⟨h, hlen⟩
    · split
      · exact ⟨h, hlen⟩
      · rename_i hallowed
        refine put_sound hmax h hlen fun c h1 h2 h3 h4 h5 h6 h7 => ⟨v, hv, hd, ?_⟩
        exact {
          handled := hh
          key := by rw [hm, hp]
          method := hc
          watched := by rw [← hm]; simpa using hpass
          plain := hplain
          allowed := by simpa using hallowed
          status := h1
          statusMessage := h2
          headers := h3
          body := h4
          etag := h5
          cachedAt := h6
          maxAge := by simpa using h7 }

theorem Inv.serve {s : State} (hmax : 1 ≤ cfg.maxEntries) (h : Inv cfg s) {v : Visit} (hv : Regular cfg s v) :
    Inv cfg (serve cfg s v) := by
  obtain ⟨hsound, hlen⟩ := preFilter_sound h.sound v
  rw [HttpCache.serve]
  generalize preFilter cfg s.entries v = r at hsound hlen
  obtain ⟨entries, goesOn, response⟩ := r
  have hlen' : entries.length ≤ cfg.maxEntries := hlen.trans h.small
  have hstay : Inv cfg { s with entries := entries } := ⟨hsound, hlen'⟩
  cases goesOn with
  | false => exact hstay
  | true =>
      cases hh : v.handled with
      | none => simpa [hh] using hstay
      | some hd =>
          have hmono : ∀ kv ∈ entries, Sound cfg (s.answered ++ [v]) kv := fun kv hkv =>
            (hsound kv hkv).mono (List.subset_append_left _ _)
          obtain ⟨hm, hp⟩ := hv.keeps hd hh
          obtain ⟨h1, h2⟩ := postFilter_sound hmax hmono hlen' (List.mem_append_right _ (List.mem_singleton_self v)) hh
            hm hp hv.method (hv.plain hd hh)
          exact ⟨h1, h2⟩

theorem Inv.exec {s : State} (hmax : 1 ≤ cfg.maxEntries) (h : Inv cfg s) {e : Event} (he : RegularEvent cfg s e) :
    Inv cfg (exec cfg s e) := by
  have hfilter (p : Bytes × Entry → Bool) : Inv cfg { s with entries := s.entries.filter p } :=
    ⟨fun kv hkv => h.sound kv (List.mem_filter.mp hkv).1, (List.length_filter_le _ _).trans h.small⟩
  cases e with
  | visit v => exact h.serve hmax he
  | remove key => exact hfilter _
  | cleanup now => exact hfilter _
  | clear => exact ⟨by simp [HttpCache.exec], Nat.zero_le _⟩

theorem inv_of_run (hmax : 1 ≤ cfg.maxEntries) {es : List Event} {s : State}
    (hr : Run (Guarded (RegularEvent cfg) (Step cfg)) .init es s) : Inv cfg s := by
  refine hr.invariant ⟨by simp [State.init], Nat.zero_le _⟩ fun h hstep => ?_
  obtain ⟨he, rfl⟩ := hstep
  exact h.exec hmax he

/-! ### Hits -/

theorem buildKey_inj {m m' p p' : Bytes} (hm : 0x3A ∉ m) (hm' : 0x3A ∉ m') (h : buildKey m p = buildKey m' p') :
    m = m' ∧ p = p' := by
  rcases List.append_eq_append_iff.mp h with ⟨a, ha, hp⟩ | ⟨a, ha, hp⟩
  · cases a with
    | nil => exact ⟨by simpa using ha.symm, (List.cons.inj hp).2⟩
    | cons c a =>
        obtain rfl := (List.cons.inj hp).1
        exact absurd (by simp [ha]) hm'
  · cases a with
    | nil => exact ⟨by simpa using ha, (List.cons.inj hp).2.symm⟩
    | cons c a =>
        obtain rfl := (List.cons.inj hp).1
        exact absurd (by simp [ha]) hm

theorem age_eq {now cachedAt : ℤ} (h1 : cachedAt ≤ now) (h2 : now < cachedAt + 2 ^ 31) :
    age now cachedAt = now - cachedAt := by
  rw [age]
  exact Int.bmod_eq_of_le (by omega) (by omega)

/-- Where the field is written plainly, the search for the words finds every directive. -/
theorem not_forbidsCaching {r : Response} (hr : Plain r)
    (h : ∀ w ∈ uncacheable, ¬ w <:+: r.header (ascii "Cache-Control")) : ¬ ForbidsCaching r := by
  rintro ⟨name, value, hfield, hname, w, hw, a, token, b, hvalue, htoken, -, -⟩
  obtain ⟨rfl, hlower⟩ := hr.field name value hfield hname
  have hheader : r.header (ascii "Cache-Control") = value := by rw [Response.header, hfield, Option.getD_some]
  have hsame : lower token = token := by
    rw [hvalue, lower, List.map_append, List.map_append] at hlower
    have h1 := List.append_inj hlower (by simp)
    exact (List.append_inj h1.1 (by simp)).2
  refine h w hw ?_
  rw [hheader, hvalue, ← htoken, hsame]
  exact List.infix_append a token b

theorem StoredFor.sameRequest {key : Bytes} {c : CachedResponse} {u v : Visit} {h : Handled}
    (hs : StoredFor cfg key c u h) (hkey : key = buildKey v.request.method v.request.path)
    (hpass : passes cfg v.request.method = false) (hm : cfg.cacheOnlyGet = true ∨ 0x3A ∉ v.request.method) :
    u.request.method = v.request.method ∧ u.request.path = v.request.path := by
  have heq := hs.key.symm.trans hkey
  have hu := hs.watched
  cases hget : cfg.cacheOnlyGet with
  | false =>
      have h1 := hs.method
      rw [hget] at h1 hm
      exact buildKey_inj (h1.resolve_left (by simp)) (hm.resolve_left (by simp)) heq
  | true =>
      have hu' : u.request.method = ascii "GET" := by
        simp only [passes, hget, isGet] at hu
        simpa using (Bool.or_eq_false_iff.mp hu).2
      have hv' : v.request.method = ascii "GET" := by
        simp only [passes, hget, isGet] at hpass
        simpa using (Bool.or_eq_false_iff.mp hpass).2
      rw [hu', hv'] at heq
      exact ⟨hu'.trans hv'.symm, (List.cons.inj (List.append_cancel_left heq)).2⟩

/-- A hit is an earlier answer to the same request. -/
theorem Inv.hit {s : State} (h : Inv cfg s) {v : Visit} (hv : Regular cfg s v) {entries : Entries} {r : Response}
    (hhit : preFilter cfg s.entries v = (entries, false, r)) :
    ∃ u ∈ s.answered, ∃ hd, ServedFrom cfg v r u hd := by
  have hget := (get_sound h.sound (buildKey v.request.method v.request.path) v.clock).2.2
  rw [preFilter] at hhit
  split at hhit
  · simp at hhit
  · rename_i hpass
    generalize get s.entries (buildKey v.request.method v.request.path) v.clock = g at hget hhit
    obtain ⟨entries', c⟩ := g
    cases c with
    | none => simp at hhit
    | some c =>
        obtain ⟨hage, u, hu, hd, hs⟩ := hget c rfl
        have hpass' : passes cfg v.request.method = false := by simpa using hpass
        obtain ⟨hm, hp⟩ := hs.sameRequest rfl hpass' hv.method
        obtain ⟨ht1, ht2⟩ := hv.clock u hu hd hs.handled
        rw [hs.cachedAt, hs.maxAge, age_eq ht1 ht2] at hage
        have hbody : hd.response.effectiveBody = hd.response.body := if_pos hs.plain.body
        refine ⟨u, hu, hd, {
          handled := hs.handled
          method := hm
          path := hp
          query := hv.query u hu hm hp
          fresh := hage
          allowed := not_forbidsCaching hs.plain hs.allowed
          content := ?_ }⟩
        dsimp only at hhit
        split at hhit
        · rename_i hmatch
          obtain rfl := (Prod.mk.inj (Prod.mk.inj hhit).2).2
          refine .inl ⟨rfl, ?_⟩
          rw [hbody, ← hs.etag]
          exact hmatch.2
        · obtain rfl := (Prod.mk.inj (Prod.mk.inj hhit).2).2
          refine .inr ⟨hs.status, hs.statusMessage, ?_, fun name h1 h2 => ?_⟩
          · rw [hbody, ← hs.body]
            exact if_pos hv.body
          · have hupd : (Function.update (Function.update c.headers (ascii "ETag") (some c.etag)) (ascii "X-Cache")
                (some (ascii "HIT"))) name = c.headers name := by
              rw [Function.update_of_ne h2, Function.update_of_ne h1]
            exact hupd.trans (congrFun hs.headers name)

section Sample

/-- The members as the source initialises them, with a digest that only has to tell bodies apart. -/
def sample : Config where
  enabled := true
  cacheOnlyGet := true
  defaultMaxAge := 60
  maxEntries := 10000
  maxBodySize := 1048576
  sha1Hex := id
  scan := id
  scan_perm := fun _ => .rfl

def sampleClock (n : ℕ) (h : n < 2 ^ 32) : Clock := ⟨n, n * 1000000000, by omega⟩

/-- `GET` of a page with a query string, answered with the query string as the body. -/
def sampleVisit (query : Bytes) (n : ℕ) (h : n < 2 ^ 32) : Visit :=
  let request : Request := ⟨ascii "GET", ascii "/page", query, fun _ => none⟩
  let response : Response := ⟨404, [], fun _ => none, [], []⟩
  ⟨request, response, sampleClock n h,
    some ⟨request, { response with status := 200, body := query }, sampleClock n h⟩⟩

theorem sampleVisit_regular (s : State) (query : Bytes) (n : ℕ) (h : n < 2 ^ 32)
    (hs : ∀ u ∈ s.answered, u.request.query = query ∧ ∀ hd ∈ u.handled, hd.clock.now = n) :
    Regular sample s (sampleVisit query n h) where
  query := fun u hu _ _ => (hs u hu).1
  keeps := by simp [sampleVisit]
  method := .inl rfl
  plain := fun hd hh => by
    obtain rfl := Option.mem_some.mp hh
    exact ⟨by simp, rfl⟩
  body := rfl
  clock := fun u hu hd hh => by
    have := (hs u hu).2 hd hh
    simp [sampleVisit, sampleClock, this]

/-- The state after one visit. -/
def visited : State := exec sample .init (.visit (sampleVisit [1] 5 (by decide)))

theorem visited_answered : visited.answered = [sampleVisit [1] 5 (by decide)] := rfl

end Sample

end NeForce.HttpCache
