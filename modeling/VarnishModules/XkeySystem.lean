import VarnishModules.XkeyPurge

/-!
The module at work: insert callbacks, remove callbacks and purges, interleaved
where the module mutex is free.

An insert callback takes the mutex once for each key, so any other step may come
between two keys of one object.
-/

namespace VarnishModules.XkeySystem

open VarnishModules.CStrings
open VarnishModules.MaximalRuns
open VarnishModules.XkeyModel
open VarnishModules.XkeyRepresentation
open VarnishModules.XkeyInsert
open VarnishModules.XkeyRemove
open VarnishModules.XkeyIndex
open VarnishModules.XkeyTokens
open VarnishModules.XkeyPurge

/-- A running `xkey_cb_insert` and the keys it has not inserted yet. -/
structure InsertCallback where
  objcore : Objcore
  keys : List CString

/-- The last two components are history: the keys of each objcore inserted since
its last removal, and whether its insert callback has started since then. -/
structure System where
  xkey : Xkey
  callbacks : List InsertCallback
  objects : Objcore → ObjcoreData
  carried : Objcore → List CString
  cached : Objcore → Bool

def System.initial (objects : Objcore → ObjcoreData) : System where
  xkey := Xkey.initial
  callbacks := []
  objects := objects
  carried := fun _ => []
  cached := fun _ => false

/-- The steps between two points at which the mutex is free.  The last one
stands for what the rest of the server does to the objects. -/
inductive Step (sha256 : CString → Digest) (rearm : Rearm) : System → System → Prop
  | insertBegin {σ : System} {o : Objcore} {hdrs ks : List CString}
      (hks : objectKeys hdrs = .ok ks) :
      Step sha256 rearm σ { σ with
        callbacks := ⟨o, ks⟩ :: σ.callbacks
        cached := Function.update σ.cached o true }
  | insertKey {σ : System} {xs ys : List InsertCallback} {o : Objcore} {k : CString}
      {ks : List CString} {xkey : Xkey} (hcb : σ.callbacks = xs ++ ⟨o, k :: ks⟩ :: ys)
      (hstep : xkeyInsert σ.xkey o (sha256 k) = .ok xkey) :
      Step sha256 rearm σ { σ with
        xkey
        callbacks := xs ++ ⟨o, ks⟩ :: ys
        carried := Function.update σ.carried o (σ.carried o ++ [k]) }
  | insertEnd {σ : System} {xs ys : List InsertCallback} {o : Objcore}
      (hcb : σ.callbacks = xs ++ ⟨o, []⟩ :: ys) :
      Step sha256 rearm σ { σ with callbacks := xs ++ ys }
  | remove {σ : System} {o : Objcore} {xkey : Xkey}
      (hidle : ∀ cb ∈ σ.callbacks, cb.objcore ≠ o)
      (hstep : xkeyCbRemove σ.xkey o = .ok xkey) :
      Step sha256 rearm σ { σ with
        xkey
        carried := Function.update σ.carried o []
        cached := Function.update σ.cached o false }
  | purge {σ : System} {doSoft : Int} {now : ℚ} {key : Option CString} {st : Purge}
      (hstep : XkeyPurge.purge sha256 rearm doSoft now (.start σ.xkey σ.objects) key = .ok st) :
      Step sha256 rearm σ { σ with xkey := st.xkey, objects := st.objects }
  | objects {σ : System} (objects : Objcore → ObjcoreData) :
      Step sha256 rearm σ { σ with objects }

def Reachable (sha256 : CString → Digest) (rearm : Rearm) (σ : System) : Prop :=
  ∃ objects, Relation.ReflTransGen (Step sha256 rearm) (System.initial objects) σ

variable {sha256 : CString → Digest} {rearm : Rearm} {σ σ' : System}

/-- The index holds the keys carried, and only cached objects carry any. -/
structure Carries (sha256 : CString → Digest) (σ : System) : Prop where
  index : ∃ g, Represents σ.xkey g (fun o => (σ.carried o).map sha256) ∧ Settled σ.xkey g ∧
    g.looseOcs = []
  callback_cached : ∀ cb ∈ σ.callbacks, σ.cached cb.objcore = true
  carried_cached : ∀ o, σ.carried o ≠ [] → σ.cached o = true

theorem carries_initial (objects : Objcore → ObjcoreData) :
    Carries sha256 (System.initial objects) where
  index := ⟨Shape.initial, represents_initial, settled_initial, rfl⟩
  callback_cached := by simp [System.initial]
  carried_cached := by simp [System.initial]

theorem map_update (f : Objcore → List CString) (o : Objcore) (ks : List CString) :
    (fun o' => (Function.update f o ks o').map sha256) =
      Function.update (fun o' => (f o').map sha256) o (ks.map sha256) := by
  funext o'
  by_cases ho : o' = o
  · subst ho
    simp
  · simp [ho]

theorem Carries.step (hσ : Carries sha256 σ) (h : Step sha256 rearm σ σ') :
    Carries sha256 σ' := by
  obtain ⟨g, hs, hset, hloose⟩ := hσ.index
  cases h with
  | insertBegin hks =>
      rename_i o hdrs ks
      have hcached : ∀ o', σ.cached o' = true → Function.update σ.cached o true o' = true := by
        intro o' ho'
        by_cases heq : o' = o <;> simp [heq, ho']
      refine ⟨hσ.index, ?_, fun o' ho' => hcached o' (hσ.carried_cached o' ho')⟩
      intro cb hcb
      rcases List.mem_cons.mp hcb with rfl | hcb
      · simp
      · exact hcached _ (hσ.callback_cached cb hcb)
  | insertKey hcb hstep =>
      rename_i xs ys o k ks xkey
      obtain ⟨x, g', hx, hs', hset', hloose'⟩ := xkeyInsert_spec hs hset o (sha256 k)
      obtain rfl : xkey = x := by simpa [hx] using hstep.symm
      have ho : σ.cached o = true := hσ.callback_cached ⟨o, k :: ks⟩ (by simp [hcb])
      refine ⟨⟨g', ?_, hset', hloose'.trans hloose⟩, ?_, ?_⟩
      · rw [map_update]
        simpa using hs'
      · intro cb hmem
        rcases List.mem_append.mp hmem with hmem | hmem
        · exact hσ.callback_cached cb (by simp [hcb, hmem])
        · rcases List.mem_cons.mp hmem with rfl | hmem
          · exact ho
          · exact hσ.callback_cached cb (by simp [hcb, hmem])
      · intro o' ho'
        by_cases heq : o' = o
        · exact heq ▸ ho
        · exact hσ.carried_cached o' (by simpa [heq] using ho')
  | insertEnd hcb =>
      refine ⟨hσ.index, fun cb hmem => hσ.callback_cached cb ?_, hσ.carried_cached⟩
      rcases List.mem_append.mp hmem with hmem | hmem <;> simp [hcb, hmem]
  | remove hidle hstep =>
      rename_i o xkey
      obtain ⟨x, g', hx, hs', hset', hloose'⟩ := xkeyCbRemove_spec hs hset o
      obtain rfl : xkey = x := by simpa [hx] using hstep.symm
      refine ⟨⟨g', ?_, hset', hloose'.trans hloose⟩, ?_, ?_⟩
      · rw [map_update]
        simpa using hs'
      · intro cb hcb
        simpa [hidle cb hcb] using hσ.callback_cached cb hcb
      · intro o' ho'
        by_cases heq : o' = o
        · simp [heq] at ho'
        · simpa [heq] using hσ.carried_cached o' (by simpa [heq] using ho')
  | purge hstep =>
      rename_i doSoft now key st
      obtain ⟨os, -, hpurge⟩ := purge_spec sha256 hs key
      have hst := hpurge rearm doSoft now (.start σ.xkey σ.objects) rfl
      obtain rfl : st = _ := by simpa [hst] using hstep.symm
      refine ⟨⟨g, ?_, ?_, hloose⟩, hσ.callback_cached, hσ.carried_cached⟩
      · simpa [Purge.start] using hs
      · simpa [Purge.start] using hset
  | objects objects => exact ⟨hσ.index, hσ.callback_cached, hσ.carried_cached⟩

theorem Reachable.carries (hσ : Reachable sha256 rearm σ) : Carries sha256 σ := by
  obtain ⟨objects, hrun⟩ := hσ
  induction hrun with
  | refl => exact carries_initial objects
  | tail _ hstep ih => exact ih.step hstep

/-- No step of the module can fault. -/
theorem Reachable.enabled (hσ : Reachable sha256 rearm σ) (o : Objcore) :
    (∀ k, ∃ xkey, xkeyInsert σ.xkey o (sha256 k) = .ok xkey) ∧
      (∃ xkey, xkeyCbRemove σ.xkey o = .ok xkey) ∧
      ∀ doSoft now key, ∃ st,
        XkeyPurge.purge sha256 rearm doSoft now (.start σ.xkey σ.objects) key = .ok st := by
  obtain ⟨g, hs, hset, -⟩ := hσ.carries.index
  refine ⟨fun k => ?_, ?_, fun doSoft now key => ?_⟩
  · obtain ⟨x, -, hx, -⟩ := xkeyInsert_spec hs hset o (sha256 k)
    exact ⟨x, hx⟩
  · obtain ⟨x, -, hx, -⟩ := xkeyCbRemove_spec hs hset o
    exact ⟨x, hx⟩
  · obtain ⟨os, -, hpurge⟩ := purge_spec sha256 hs key
    exact ⟨_, hpurge rearm doSoft now _ rfl⟩

theorem mem_keyTokens_iff {key : Option CString} {t : CString} :
    t ∈ keyTokens key ↔ ∃ s ∈ key, IsRun isblank t s := by
  cases key with
  | none => simp [keyTokens]
  | some s => simp [keyTokens, mem_tokens_iff]

/-- A hard purge rearms the objcores that carry one of its keys and are not
busy; the keys on both sides are the runs without blanks. -/
theorem reachable_purge (hσ : Reachable sha256 rearm σ) (key : Option CString) (now : ℚ)
    (hinj : Set.InjOn sha256 {t | (∃ o, t ∈ σ.carried o) ∨ t ∈ keyTokens key}) :
    (∃ st, vmodPurge sha256 rearm now (.start σ.xkey σ.objects) key = .ok st ∧
      st.xkey = σ.xkey ∧
      (∀ o, o ∈ st.calls.map RearmCall.objcore ↔
        (σ.objects o).busy = false ∧ ∃ t ∈ σ.carried o, ∃ s ∈ key, IsRun isblank t s) ∧
      (∀ o, o ∉ st.calls.map RearmCall.objcore → st.objects o = σ.objects o) ∧
      ∀ o ∈ st.calls.map RearmCall.objcore, σ.cached o = true) ∧
    ∀ hdrs, ∃ ks, objectKeys hdrs = .ok ks ∧ ∀ t, t ∈ ks ↔
      ∃ hdr ∈ hdrs, ∃ value, IsXkeyHeader hdr value ∧ IsRun isblank t value := by
  refine ⟨?_, objectKeys_spec⟩
  have hcarries := hσ.carries
  obtain ⟨g, hs, -, -⟩ := hcarries.index
  obtain ⟨os, hos, hpurge⟩ := purge_spec sha256 hs key
  obtain ⟨hcalls, hobjects⟩ := purgeOcs_hard rearm now os (.start σ.xkey σ.objects)
  have hcalled : ∀ o, o ∈ (purgeOcs rearm 0 now os (.start σ.xkey σ.objects)).calls.map
      RearmCall.objcore ↔ o ∈ os ∧ (σ.objects o).busy = false := by
    intro o
    rw [hcalls]
    simp [Purge.start]
  have hcarry : ∀ o, o ∈ os ↔ ∃ t ∈ σ.carried o, ∃ s ∈ key, IsRun isblank t s := by
    intro o
    simp only [hos, ← mem_keyTokens_iff, List.mem_map]
    constructor
    · rintro ⟨t, ht, t', ht', heq⟩
      obtain rfl : t' = t := hinj (Or.inl ⟨o, ht'⟩) (Or.inr ht) heq
      exact ⟨t', ht', ht⟩
    · rintro ⟨t, ht', ht⟩
      exact ⟨t, ht, t, ht', rfl⟩
  refine ⟨_, hpurge rearm 0 now _ rfl, purgeOcs_xkey _ _ _ _ _, fun o => ?_, fun o ho => ?_,
    fun o ho => ?_⟩
  · rw [hcalled, hcarry, and_comm]
  · refine hobjects o fun hmem => ?_
    by_contra hbusy
    exact ho ((hcalled o).mpr ⟨hmem, by simpa [Purge.start] using hbusy⟩)
  · obtain ⟨t, ht, -⟩ := (hcarry o).mp ((hcalled o).mp ho).1
    exact hcarries.carried_cached o (List.ne_nil_of_mem ht)

/-- One object with the key `a`, and a purge of `b` and `a`. -/
theorem reachable_purge_one :
    ∃ σ st, Reachable sha256Table setExp σ ∧ σ.carried 1 = [str "a"] ∧
      vmodPurge sha256Table setExp 0 (.start σ.xkey σ.objects) (some (str "b a")) = .ok st ∧
      1 ∈ st.calls.map RearmCall.objcore := by
  let σ₀ := System.initial fun _ => ⟨false, ⟨10, 0, 0, 0⟩⟩
  have htok : tokens (str " a") = [str "a"] := by
    rw [tokens_of_some (show xkeyTok (str " a") = some (str "a", []) by decide),
      tokens_of_none (by decide)]
  have hkeys : objectKeys [str "xkey: a"] = .ok [str "a"] := by
    have hheader : headerKeys (str "xkey: a") = .ok (tokens (str " a")) := by
      rw [headerKeys, if_neg (by decide)]
      rfl
    simp [objectKeys, hheader, htok, bind, Except.bind, pure, Except.pure]
  have hbegin : Step sha256Table setExp σ₀ { σ₀ with
      callbacks := [⟨1, [str "a"]⟩], cached := Function.update σ₀.cached 1 true } :=
    .insertBegin hkeys
  have hreach := Relation.ReflTransGen.single hbegin
  obtain ⟨xkey, hx⟩ := (Reachable.enabled ⟨_, hreach⟩ 1).1 (str "a")
  have hinsert : Step sha256Table setExp _ { σ₀ with
      xkey, callbacks := [⟨1, []⟩], carried := Function.update σ₀.carried 1 [str "a"]
      cached := Function.update σ₀.cached 1 true } :=
    .insertKey (show _ = [] ++ _ from rfl) hx
  have hσ := hreach.tail hinsert
  have hpurged : keyTokens (some (str "b a")) = [str "b", str "a"] := by
    change tokens (str "b a") = _
    rw [tokens_of_some (show xkeyTok (str "b a") = some (str "b", str " a") by decide), htok]
  obtain ⟨⟨st, hst, -, hcalls, -⟩, -⟩ := reachable_purge ⟨_, hσ⟩ (some (str "b a")) 0 (by
    rw [hpurged]
    have hmem : ∀ t, ((∃ o, t ∈ Function.update σ₀.carried 1 [str "a"] o) ∨
        t ∈ [str "b", str "a"]) → t = str "a" ∨ t = str "b" := by
      rintro t (⟨o, ho⟩ | ht)
      · by_cases heq : o = 1
        · subst heq
          simp [σ₀, System.initial] at ho
          exact Or.inl ho
        · simp [heq, σ₀, System.initial] at ho
      · simp at ht
        tauto
    intro t ht t' ht' heq
    rcases hmem t ht with rfl | rfl <;> rcases hmem t' ht' with rfl | rfl
    · rfl
    · exact absurd heq (by decide)
    · exact absurd heq (by decide)
    · rfl)
  refine ⟨_, st, ⟨_, hσ⟩, rfl, hst, (hcalls 1).mpr ⟨rfl, str "a", by simp, _, rfl, ?_⟩⟩
  rw [← mem_tokens_iff]
  change str "a" ∈ keyTokens (some (str "b a"))
  simp [hpurged]

end VarnishModules.XkeySystem
