import TinkoffChat.PartialRuns
import Mathlib.Logic.Function.Basic
import Mathlib.Data.Option.Basic

/-!
The identifier a device sends its messages under. The service reads it lazily, from
the user defaults or as a new UUID that it stores there, and it does so from the main
thread and from blocks of the global queue: a second access may find the defaults
still empty while a first one has not come to its end. UUIDs are never issued twice.
-/
namespace TinkoffChat.SenderIds

open PartialRuns

variable {Device : Type*}

/-- The user defaults, the lazy property of the running service, the calls of getUUID that
are under way with the identifier each has found, and all identifiers used and issued. -/
structure State (Device : Type*) where
  stored : Device → Option String
  cached : Device → Option String
  underWay : List (Device × Option String)
  used : List (Device × String)
  issued : List String

def State.init : State Device := ⟨fun _ => none, fun _ => none, [], [], []⟩

inductive Event (Device : Type*)
  | senderId (device : Device)
  | getUUID (access : ℕ) (uuid : String)
  | relaunch (device : Device)

variable [DecidableEq Device]

/-- A call of getUUID ends: the property and the answer are the given identifier. -/
def State.answer (s : State Device) (access : ℕ) (device : Device) (id : String) : State Device :=
  { s with
    cached := Function.update s.cached device (some id)
    underWay := s.underWay.eraseIdx access
    used := s.used ++ [(device, id)] }

def State.issue (s : State Device) (device : Device) (uuid : String) : State Device :=
  { s with
    stored := Function.update s.stored device (some uuid)
    issued := s.issued ++ [uuid] }

def step (s : State Device) : Event Device → Option (State Device)
  | .senderId device =>
    match s.cached device with
    | some id => some { s with used := s.used ++ [(device, id)] }
    | none => some { s with
        underWay := s.underWay ++ [(device, (s.stored device).filter fun uuid => !uuid.isEmpty)] }
  | .getUUID access uuid => s.underWay[access]?.bind fun
      | (device, some id) => some (s.answer access device id)
      | (device, none) =>
        if uuid ∉ s.issued ∧ uuid ≠ "" then some ((s.answer access device uuid).issue device uuid)
        else none
  | .relaunch device => some { s with
      cached := Function.update s.cached device none
      underWay := s.underWay.filter fun a => a.1 ≠ device }

/-- A new identifier is stored only where none is yet. -/
def FirstUse (s : State Device) : Event Device → Prop
  | .getUUID access _ => ∀ device, s.underWay[access]? = some (device, none) →
      s.stored device = none
  | _ => True

/-- Every device has used one identifier. -/
def Single (s : State Device) : Prop :=
  ∀ d i j, (d, i) ∈ s.used → (d, j) ∈ s.used → i = j

/-- Whatever a device holds it has used, and it has stored one of those it has used. -/
structure Invariant (s : State Device) : Prop where
  stored : ∀ d i, s.stored d = some i → (d, i) ∈ s.used
  cached : ∀ d i, s.cached d = some i → (d, i) ∈ s.used
  underWay : ∀ d i, (d, some i) ∈ s.underWay → (d, i) ∈ s.used
  stores : ∀ d i, (d, i) ∈ s.used → s.stored d ≠ none
  issued : ∀ d i, (d, i) ∈ s.used → i ∈ s.issued ∧ i ≠ ""
  owner : ∀ d d' i, (d, i) ∈ s.used → (d', i) ∈ s.used → d = d'

variable {s t : State Device} {e : Event Device} {d : Device} {id uuid : String} {access : ℕ}

/-- All that an event can do. -/
theorem step_cases (h : step s e = some t) :
    (∃ d id, e = .senderId d ∧ s.cached d = some id ∧
      t = { s with used := s.used ++ [(d, id)] }) ∨
    (∃ d, e = .senderId d ∧ t = { s with
      underWay := s.underWay ++ [(d, (s.stored d).filter fun uuid => !uuid.isEmpty)] }) ∨
    (∃ access uuid d id, e = .getUUID access uuid ∧ s.underWay[access]? = some (d, some id) ∧
      t = s.answer access d id) ∨
    (∃ access uuid d, e = .getUUID access uuid ∧ s.underWay[access]? = some (d, none) ∧
      uuid ∉ s.issued ∧ uuid ≠ "" ∧ t = (s.answer access d uuid).issue d uuid) ∨
    ∃ d, e = .relaunch d ∧ t = { s with
      cached := Function.update s.cached d none
      underWay := s.underWay.filter fun a => a.1 ≠ d } := by
  cases e with
  | senderId d =>
    simp only [step] at h
    split at h
    · rename_i id hid
      exact Or.inl ⟨d, id, rfl, hid, (Option.some.inj h).symm⟩
    · exact Or.inr (Or.inl ⟨d, rfl, (Option.some.inj h).symm⟩)
  | getUUID access uuid =>
    obtain ⟨⟨d, found⟩, hfound, hrest⟩ := Option.bind_eq_some_iff.mp h
    cases found with
    | some id =>
      exact Or.inr (Or.inr (Or.inl
        ⟨access, uuid, d, id, rfl, hfound, (Option.some.inj hrest).symm⟩))
    | none =>
      obtain ⟨⟨hfresh, hne⟩, heq⟩ := Option.ite_none_right_eq_some.mp hrest
      exact Or.inr (Or.inr (Or.inr (Or.inl
        ⟨access, uuid, d, rfl, hfound, hfresh, hne, (Option.some.inj heq).symm⟩)))
  | relaunch d =>
    exact Or.inr (Or.inr (Or.inr (Or.inr ⟨d, rfl, (Option.some.inj h).symm⟩)))

omit [DecidableEq Device] in
theorem mem_concat_of_mem (h : (d, id) ∈ s.used) (a : Device × String) :
    a ∈ s.used ++ [(d, id)] ↔ a ∈ s.used := by
  rw [List.mem_append, List.mem_singleton]
  constructor
  · rintro (hold | rfl)
    · exact hold
    · exact h
  · exact Or.inl

omit [DecidableEq Device] in
/-- An answer that the device has used before. -/
theorem invariant_of_used (hs : Invariant s) (hused : ∀ a, a ∈ t.used ↔ a ∈ s.used)
    (hstored : t.stored = s.stored) (hissued : t.issued = s.issued)
    (hcached : ∀ d i, t.cached d = some i → (d, i) ∈ s.used)
    (hunderWay : ∀ d i, (d, some i) ∈ t.underWay → (d, i) ∈ s.used) : Invariant t where
  stored d i h := (hused _).mpr (hs.stored d i (hstored ▸ h))
  cached d i h := (hused _).mpr (hcached d i h)
  underWay d i h := (hused _).mpr (hunderWay d i h)
  stores d i h := hstored ▸ hs.stores d i ((hused _).mp h)
  issued d i h := hissued ▸ hs.issued d i ((hused _).mp h)
  owner d d' i h h' := hs.owner d d' i ((hused _).mp h) ((hused _).mp h')

theorem issue_invariant (hs : Invariant s) (hfresh : uuid ∉ s.issued) (hne : uuid ≠ "") :
    Invariant ((s.answer access d uuid).issue d uuid) := by
  have hused : ∀ a, a ∈ ((s.answer access d uuid).issue d uuid).used ↔
      a ∈ s.used ∨ a = (d, uuid) := fun a => by
    rw [← List.mem_singleton (b := (d, uuid))]
    exact List.mem_append
  have hnew : ∀ d', (d', uuid) ∉ s.used := fun d' h => hfresh (hs.issued d' uuid h).1
  have hupdate : ∀ (f : Device → Option String) (d' : Device) (i : String),
      (∀ i, f d' = some i → (d', i) ∈ s.used) → Function.update f d (some uuid) d' = some i →
        (d', i) ∈ s.used ∨ (d', i) = (d, uuid) := by
    intro f d' i hf h
    by_cases hd : d' = d
    · subst hd
      rw [Function.update_self] at h
      exact Or.inr (congrArg (Prod.mk d') (Option.some.inj h).symm)
    · rw [Function.update_of_ne hd] at h
      exact Or.inl (hf i h)
  constructor
  · exact fun d' i h => (hused _).mpr (hupdate s.stored d' i (hs.stored d') h)
  · exact fun d' i h => (hused _).mpr (hupdate s.cached d' i (hs.cached d') h)
  · exact fun d' i h => (hused _).mpr (Or.inl (hs.underWay d' i (List.mem_of_mem_eraseIdx h)))
  · intro d' i h
    by_cases hd : d' = d
    · subst hd
      simp [State.issue]
    · have hstored : ((s.answer access d uuid).issue d uuid).stored d' = s.stored d' :=
        Function.update_of_ne hd _ _
      rw [hstored]
      rcases (hused _).mp h with hold | heq
      · exact hs.stores d' i hold
      · exact absurd (congrArg Prod.fst heq) hd
  · intro d' i h
    rcases (hused _).mp h with hold | heq
    · exact ⟨List.mem_append_left _ (hs.issued d' i hold).1, (hs.issued d' i hold).2⟩
    · obtain ⟨rfl, rfl⟩ := Prod.mk.inj heq
      exact ⟨List.mem_append_right _ (List.mem_singleton_self _), hne⟩
  · intro d₁ d₂ i h₁ h₂
    rcases (hused _).mp h₁ with hold₁ | heq₁ <;> rcases (hused _).mp h₂ with hold₂ | heq₂
    · exact hs.owner d₁ d₂ i hold₁ hold₂
    · obtain ⟨-, rfl⟩ := Prod.mk.inj heq₂
      exact absurd hold₁ (hnew d₁)
    · obtain ⟨-, rfl⟩ := Prod.mk.inj heq₁
      exact absurd hold₂ (hnew d₂)
    · exact (congrArg Prod.fst heq₁).trans (congrArg Prod.fst heq₂).symm

theorem step_invariant (hs : Invariant s) (h : step s e = some t) : Invariant t := by
  rcases step_cases h with ⟨d, id, rfl, hid, rfl⟩ | ⟨d, rfl, rfl⟩ |
    ⟨access, uuid, d, id, rfl, hfound, rfl⟩ | ⟨access, uuid, d, rfl, hfound, hfresh, hne, rfl⟩ |
    ⟨d, rfl, rfl⟩
  · exact invariant_of_used hs (mem_concat_of_mem (hs.cached d id hid)) rfl rfl hs.cached
      hs.underWay
  · refine invariant_of_used hs (fun _ => Iff.rfl) rfl rfl hs.cached fun d' i h => ?_
    rcases List.mem_append.mp h with hold | hnew
    · exact hs.underWay d' i hold
    · obtain ⟨rfl, hi⟩ := Prod.mk.inj (List.mem_singleton.mp hnew)
      exact hs.stored d' i (Option.filter_eq_some_iff.mp hi.symm).1
  · have hused := hs.underWay d id (List.mem_of_getElem? hfound)
    refine invariant_of_used hs (mem_concat_of_mem hused) rfl rfl (fun d' i h => ?_)
      fun d' i h => hs.underWay d' i (List.mem_of_mem_eraseIdx h)
    by_cases hd : d' = d
    · subst hd
      have hself : (s.answer access d' id).cached d' = some id := Function.update_self ..
      obtain rfl := Option.some.inj (hself.symm.trans h)
      exact hused
    · exact hs.cached d' i ((Function.update_of_ne hd _ _).symm.trans h)
  · exact issue_invariant hs hfresh hne
  · refine invariant_of_used hs (fun _ => Iff.rfl) rfl rfl (fun d' i h => ?_)
      fun d' i h => hs.underWay d' i (List.mem_filter.mp h).1
    by_cases hd : d' = d
    · subst hd
      have hself : Function.update s.cached d' none d' = none := Function.update_self ..
      cases hself.symm.trans h
    · exact hs.cached d' i ((Function.update_of_ne hd _ _).symm.trans h)

omit [DecidableEq Device] in
theorem init_invariant : Invariant (State.init : State Device) := by
  constructor <;> simp [State.init]

omit [DecidableEq Device] in
theorem single_congr (hused : ∀ a, a ∈ t.used ↔ a ∈ s.used) : Single t ↔ Single s := by
  simp only [Single, hused]

/-- A step leaves every device with one identifier exactly if it does not store a second. -/
theorem step_single_iff (hs : Invariant s) (h : step s e = some t) :
    Single t ↔ FirstUse s e ∧ Single s := by
  rcases step_cases h with ⟨d, id, rfl, hid, rfl⟩ | ⟨d, rfl, rfl⟩ |
    ⟨access, uuid, d, id, rfl, hfound, rfl⟩ | ⟨access, uuid, d, rfl, hfound, hfresh, -, rfl⟩ |
    ⟨d, rfl, rfl⟩
  · rw [single_congr (mem_concat_of_mem (hs.cached d id hid))]
    exact (and_iff_right trivial).symm
  · exact (and_iff_right trivial).symm
  · have hused := hs.underWay d id (List.mem_of_getElem? hfound)
    have hfirst : FirstUse s (.getUUID access uuid) := by
      intro d' hd'
      have hsame := Option.some.inj (hfound.symm.trans hd')
      cases hsame
    rw [and_iff_right hfirst]
    exact single_congr (mem_concat_of_mem hused)
  · have hfirst : FirstUse s (.getUUID access uuid) ↔ s.stored d = none := by
      constructor
      · exact fun hf => hf d hfound
      · intro hnone d' hd'
        obtain ⟨rfl, -⟩ := Prod.mk.inj (Option.some.inj (hfound.symm.trans hd'))
        exact hnone
    have hused : ∀ a, a ∈ ((s.answer access d uuid).issue d uuid).used ↔
        a ∈ s.used ∨ a = (d, uuid) := fun a => by
      rw [← List.mem_singleton (b := (d, uuid))]
      exact List.mem_append
    rw [hfirst]
    constructor
    · intro hsingle
      refine ⟨?_, fun d' i j hi hj => hsingle d' i j ((hused _).mpr (Or.inl hi))
        ((hused _).mpr (Or.inl hj))⟩
      by_contra hstored
      obtain ⟨i, hi⟩ := Option.ne_none_iff_exists'.mp hstored
      have hold := hs.stored d i hi
      obtain rfl := hsingle d i uuid ((hused _).mpr (Or.inl hold)) ((hused _).mpr (Or.inr rfl))
      exact hfresh (hs.issued d i hold).1
    · rintro ⟨hnone, hsingle⟩ d' i j hi hj
      rcases (hused _).mp hi with oldi | newi <;> rcases (hused _).mp hj with oldj | newj
      · exact hsingle d' i j oldi oldj
      · obtain rfl : d' = d := congrArg Prod.fst newj
        exact absurd hnone (hs.stores d' i oldi)
      · obtain rfl : d' = d := congrArg Prod.fst newi
        exact absurd hnone (hs.stores d' j oldj)
      · exact (congrArg Prod.snd newi).trans (congrArg Prod.snd newj).symm
  · exact (and_iff_right trivial).symm

/-- No two devices ever use one identifier, and a device uses a single one over all its
launches if and only if no access stores one where another has been stored meanwhile. -/
theorem identity {es : List (Event Device)} (h : run step State.init es = some s) :
    (∀ d d' i, (d, i) ∈ s.used → (d', i) ∈ s.used → d = d') ∧
      (Single s ↔ Along step FirstUse State.init es) := by
  have hstep : ∀ (s : State Device) e t, Invariant s → step s e = some t → Invariant t :=
    fun _ _ _ hs h => step_invariant hs h
  have hiff : ∀ (s : State Device) e t, Invariant s → step s e = some t →
      (Single t ↔ FirstUse s e ∧ Single s) := fun _ _ _ hs h => step_single_iff hs h
  have hs : Invariant s := run_invariant hstep init_invariant h
  have hinit : Single (State.init : State Device) := by
    intro d i j hi
    cases hi
  refine ⟨hs.owner, ?_⟩
  rw [run_iff hstep hiff init_invariant h, and_iff_left hinit]

/-- Asked one after the other, and again after a relaunch. -/
def inTurn : List (Event ℕ) :=
  [.senderId 0, .getUUID 0 "u1", .senderId 0, .relaunch 0, .senderId 0, .getUUID 0 "u2"]

/-- Two blocks of the global queue that ask before one of them has stored its UUID. -/
def overlapping : List (Event ℕ) :=
  [.senderId 0, .senderId 0, .getUUID 0 "u1", .getUUID 0 "u2"]

theorem identity_inTurn : (∃ s, run step State.init inTurn = some s ∧
      s.used = [(0, "u1"), (0, "u1"), (0, "u1")] ∧ Along step FirstUse State.init inTurn) ∧
    ∃ s, run step State.init overlapping = some s ∧
      s.used = [(0, "u1"), (0, "u2")] ∧ ¬ Along step FirstUse State.init overlapping := by
  obtain ⟨s, hs, hused⟩ : ∃ s, run step State.init inTurn = some s ∧
      s.used = [(0, "u1"), (0, "u1"), (0, "u1")] := ⟨_, rfl, rfl⟩
  obtain ⟨t, ht, htwo⟩ : ∃ t, run step State.init overlapping = some t ∧
      t.used = [(0, "u1"), (0, "u2")] := ⟨_, rfl, rfl⟩
  refine ⟨⟨s, hs, hused, (identity hs).2.mp ?_⟩, t, ht, htwo, fun h => ?_⟩
  · intro d i j hi hj
    simp only [hused, List.mem_cons, List.not_mem_nil, or_false, or_self, Prod.mk.injEq] at hi hj
    exact hi.2.trans hj.2.symm
  · have hsame := (identity ht).2.mpr h 0 "u1" "u2" (by simp [htwo]) (by simp [htwo])
    exact absurd hsame (by decide)

end TinkoffChat.SenderIds
