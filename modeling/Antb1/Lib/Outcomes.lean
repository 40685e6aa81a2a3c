import Mathlib.Data.List.Forall2

/-! Computations with several possible results that may also fail. A computation
is the set of its results, `none` among them where it can fail. -/

/-- The possible results of a computation; `none` is failure. -/
def Outcomes (α : Type) : Type := Set (Option α)

namespace Outcomes

variable {α β γ : Type} {f : α → Outcomes β} {inputs : List α} {m : Outcomes α} {values : α → Prop}
  (g : β → γ) {a : α} {b : β} {results : List β} {n : Outcomes α}

/-- `some a` is a result of the computation. -/
def Yields (m : Outcomes α) (a : α) : Prop := Set.Mem m (some a)

def Fails (m : Outcomes α) : Prop := Set.Mem m none

@[ext] theorem ext (yields : ∀ a, m.Yields a ↔ n.Yields a) (fails : m.Fails ↔ n.Fails) : m = n := by
  apply Set.ext
  intro outcome
  cases outcome with
  | none => exact fails
  | some a => exact yields a

def ofOption (result : Option α) : Outcomes α := {outcome | outcome = result}

def pure (a : α) : Outcomes α := ofOption (some a)

theorem ofOption_some (a : α) : ofOption (some a) = pure a := rfl

def choose (values : α → Prop) : Outcomes α := {outcome | ∃ a, outcome = some a ∧ values a}

def bind (m : Outcomes α) (f : α → Outcomes β) : Outcomes β :=
  {outcome | (m.Fails ∧ outcome = none) ∨ ∃ a, m.Yields a ∧ Set.Mem (f a) outcome}

def mapM (f : α → Outcomes β) : List α → Outcomes (List β)
  | [] => pure []
  | a :: rest => bind (f a) fun b => bind (mapM f rest) fun bs => pure (b :: bs)

@[simp] theorem mapM_nil (f : α → Outcomes β) : mapM f [] = pure [] := rfl

theorem mapM_cons (f : α → Outcomes β) (a : α) (rest : List α) :
    mapM f (a :: rest) = bind (f a) fun b => bind (mapM f rest) fun bs => pure (b :: bs) := rfl

@[simp] theorem ofOption_yields {result : Option α} :
    (ofOption result).Yields a ↔ result = some a := by
  constructor <;> exact Eq.symm

@[simp] theorem ofOption_fails {result : Option α} : (ofOption result).Fails ↔ result = none := by
  constructor <;> exact Eq.symm

@[simp] theorem pure_yields {a b : α} : (pure a).Yields b ↔ b = a := by
  rw [pure, ofOption_yields, Option.some.injEq, eq_comm]

@[simp] theorem pure_fails : ¬ (pure a).Fails := by
  simp [pure]

@[simp] theorem choose_yields : (choose values).Yields a ↔ values a := by
  constructor
  · rintro ⟨b, same, holds⟩
    exact Option.some.inj same ▸ holds
  · intro holds
    exact ⟨a, rfl, holds⟩

@[simp] theorem choose_fails : ¬ (choose values).Fails := by
  rintro ⟨b, same, _⟩
  cases same

@[simp] theorem bind_yields : (bind m f).Yields b ↔ ∃ a, m.Yields a ∧ (f a).Yields b := by
  constructor
  · rintro (⟨_, same⟩ | found)
    · cases same
    · exact found
  · exact .inr

@[simp] theorem bind_fails : (bind m f).Fails ↔ m.Fails ∨ ∃ a, m.Yields a ∧ (f a).Fails := by
  constructor
  · rintro (⟨fails, _⟩ | found)
    · exact .inl fails
    · exact .inr found
  · rintro (fails | found)
    · exact .inl ⟨fails, rfl⟩
    · exact .inr found

@[simp] theorem pure_bind (a : α) (f : α → Outcomes β) : bind (pure a) f = f a := by
  ext <;> simp

theorem bind_pure (m : Outcomes α) : bind m pure = m := by
  ext <;> simp

theorem bind_assoc (m : Outcomes α) (f : α → Outcomes β) (g : β → Outcomes γ) :
    bind (bind m f) g = bind m fun a => bind (f a) g := by
  ext c
  · simp only [bind_yields]
    constructor
    · rintro ⟨b, ⟨a, ha, hb⟩, hc⟩
      exact ⟨a, ha, b, hb, hc⟩
    · rintro ⟨a, ha, b, hb, hc⟩
      exact ⟨b, ⟨a, ha, hb⟩, hc⟩
  · simp only [bind_fails, bind_yields]
    constructor
    · rintro ((fails | ⟨a, ha, fails⟩) | ⟨b, ⟨a, ha, hb⟩, fails⟩)
      · exact .inl fails
      · exact .inr ⟨a, ha, .inl fails⟩
      · exact .inr ⟨a, ha, .inr ⟨b, hb, fails⟩⟩
    · rintro (fails | ⟨a, ha, fails | ⟨b, hb, fails⟩⟩)
      · exact .inl (.inl fails)
      · exact .inl (.inr ⟨a, ha, fails⟩)
      · exact .inr ⟨b, ⟨a, ha, hb⟩, fails⟩

theorem bind_congr {f g : α → Outcomes β} (same : ∀ a, m.Yields a → f a = g a) :
    bind m f = bind m g := by
  ext b
  · simp only [bind_yields]
    exact exists_congr fun a => and_congr_right fun yields => by rw [same a yields]
  · simp only [bind_fails]
    exact or_congr_right (exists_congr fun a => and_congr_right fun yields => by rw [same a yields])

def map (f : α → β) (m : Outcomes α) : Outcomes β := bind m fun a => pure (f a)

@[simp] theorem map_yields {f : α → β} : (map f m).Yields b ↔ ∃ a, m.Yields a ∧ b = f a := by
  simp [map]

@[simp] theorem map_fails {f : α → β} : (map f m).Fails ↔ m.Fails := by
  simp [map]

@[simp] theorem map_pure (f : α → β) (a : α) : map f (pure a) = pure (f a) := pure_bind _ _

theorem map_bind (m : Outcomes α) (f : α → Outcomes β) :
    map g (bind m f) = bind m fun a => map g (f a) := bind_assoc ..

theorem bind_map (f : α → β) (m : Outcomes α) (g : β → Outcomes γ) :
    bind (map f m) g = bind m fun a => g (f a) := by
  simp only [map, bind_assoc, pure_bind]

theorem map_map (f : α → β) (m : Outcomes α) : map g (map f m) = map (fun a => g (f a)) m := by
  simp only [map, bind_assoc, pure_bind]

theorem map_congr {f g : α → β} (same : ∀ a, m.Yields a → f a = g a) : map f m = map g m :=
  bind_congr fun a yields => by rw [same a yields]

theorem map_eq_self {f : α → α} (same : ∀ a, m.Yields a → f a = a) : map f m = m :=
  (map_congr same).trans (bind_pure m)

theorem map_injective {f : α → β} (injective : Function.Injective f) (same : map f m = map f n) :
    m = n := by
  have yields : ∀ {m n : Outcomes α} {a : α}, map f m = map f n → m.Yields a → n.Yields a := by
    intro m n a same found
    have image : (map f n).Yields (f a) := same ▸ map_yields.mpr ⟨a, found, rfl⟩
    obtain ⟨b, found', equal⟩ := map_yields.mp image
    exact injective equal ▸ found'
  ext a
  · exact ⟨yields same, yields same.symm⟩
  · rw [← map_fails, same, map_fails]

theorem map_eq_pure {f : α → β} (safe : ¬ m.Fails) (found : ∃ a, m.Yields a)
    (same : ∀ a, m.Yields a → f a = b) : map f m = pure b := by
  ext c
  · rw [map_yields, pure_yields]
    constructor
    · rintro ⟨a, yields, rfl⟩
      exact same a yields
    · rintro rfl
      obtain ⟨a, yields⟩ := found
      exact ⟨a, yields, (same a yields).symm⟩
  · simp [safe]

theorem mapM_singleton (f : α → Outcomes β) (a : α) : mapM f [a] = map (fun b => [b]) (f a) := by
  simp only [mapM_cons, mapM_nil, pure_bind, map]

theorem mapM_congr {f g : α → Outcomes β} (same : ∀ a ∈ inputs, f a = g a) :
    mapM f inputs = mapM g inputs := by
  induction inputs with
  | nil => rfl
  | cons first rest ih =>
    rw [mapM_cons, mapM_cons, same first (by simp), ih fun a member => same a (by simp [member])]

theorem map_mapM (f : α → Outcomes β) (inputs : List α) :
    map (List.map g) (mapM f inputs) = mapM (fun a => map g (f a)) inputs := by
  induction inputs with
  | nil => simp
  | cons first rest ih =>
    simp only [mapM_cons, map_bind, bind_map, map_pure, List.map_cons]
    refine bind_congr fun b _ => ?_
    rw [← ih, bind_map]

theorem mapM_map (f : β → Outcomes γ) (g : α → β) (inputs : List α) :
    mapM f (inputs.map g) = mapM (fun a => f (g a)) inputs := by
  induction inputs with
  | nil => rfl
  | cons first rest ih => simp only [List.map_cons, mapM_cons, ih]

theorem mapM_map_zip (f : α → Outcomes β) (g : α → β → γ) (inputs : List α) :
    mapM (fun a => map (g a) (f a)) inputs =
      map (fun results => List.zipWith g inputs results) (mapM f inputs) := by
  induction inputs with
  | nil => simp
  | cons first rest ih =>
    simp only [mapM_cons, map_bind, bind_map, ih, map_pure, List.zipWith_cons_cons]

theorem mapM_yields :
    (mapM f inputs).Yields results ↔ List.Forall₂ (fun a b => (f a).Yields b) inputs results := by
  induction inputs generalizing results with
  | nil => simp
  | cons first rest ih =>
    simp only [mapM_cons, bind_yields, pure_yields, ih, List.forall₂_cons_left_iff]
    constructor
    · rintro ⟨b, head, bs, tail, rfl⟩
      exact ⟨b, bs, head, tail, rfl⟩
    · rintro ⟨b, bs, head, tail, rfl⟩
      exact ⟨b, head, bs, tail, rfl⟩

theorem mapM_yields_mem (yields : (mapM f inputs).Yields results) (member : b ∈ results) :
    ∃ a ∈ inputs, (f a).Yields b := by
  have pairs := mapM_yields.mp yields
  induction pairs with
  | nil => cases member
  | cons here _ ih =>
    rcases List.mem_cons.mp member with rfl | among
    · exact ⟨_, by simp, here⟩
    · obtain ⟨a, inside, found⟩ := ih (mapM_yields.mpr ‹_›) among
      exact ⟨a, by simp [inside], found⟩

theorem mapM_safe (safe : ∀ a ∈ inputs, ¬ (f a).Fails) : ¬ (mapM f inputs).Fails := by
  induction inputs with
  | nil => simp
  | cons first rest ih =>
    have tail := ih fun a member => safe a (by simp [member])
    simp [mapM_cons, safe first (by simp), tail]

theorem mapM_found (found : ∀ a ∈ inputs, ∃ b, (f a).Yields b) :
    ∃ results, (mapM f inputs).Yields results := by
  induction inputs with
  | nil => exact ⟨[], by simp⟩
  | cons first rest ih =>
    obtain ⟨b, head⟩ := found first (by simp)
    obtain ⟨bs, tail⟩ := ih fun a member => found a (by simp [member])
    exact ⟨b :: bs, mapM_yields.mpr (.cons head (mapM_yields.mp tail))⟩

theorem mapM_append (f : α → Outcomes β) (first second : List α) :
    mapM f (first ++ second) =
      bind (mapM f first) fun before => map (before ++ ·) (mapM f second) := by
  induction first with
  | nil => simp [map, bind_pure]
  | cons head rest ih =>
    simp only [List.cons_append, mapM_cons, ih, bind_assoc, pure_bind]
    refine bind_congr fun b _ => bind_congr fun before _ => ?_
    simp only [map, bind_assoc, pure_bind]

theorem mapM_yields_length (yields : (mapM f inputs).Yields results) :
    results.length = inputs.length :=
  (mapM_yields.mp yields).length_eq.symm

def Total (m : Outcomes α) : Prop := m.Fails ∨ ∃ a, m.Yields a

theorem total_ofOption (result : Option α) : (ofOption result).Total := by
  cases result with
  | none => exact .inl (ofOption_fails.mpr rfl)
  | some a => exact .inr ⟨a, ofOption_yields.mpr rfl⟩

theorem total_pure (a : α) : (pure a).Total := total_ofOption _

theorem total_choose (found : ∃ a, values a) : (choose values).Total := by
  obtain ⟨a, holds⟩ := found
  exact .inr ⟨a, choose_yields.mpr holds⟩

theorem Total.bind (total : m.Total) (next : ∀ a, (f a).Total) :
    (bind m f).Total := by
  rcases total with fails | ⟨a, yields⟩
  · exact .inl (bind_fails.mpr (.inl fails))
  · rcases next a with fails | ⟨b, found⟩
    · exact .inl (bind_fails.mpr (.inr ⟨a, yields, fails⟩))
    · exact .inr ⟨b, bind_yields.mpr ⟨a, yields, found⟩⟩

theorem Total.mapM (total : ∀ a ∈ inputs, (f a).Total) : (mapM f inputs).Total := by
  induction inputs with
  | nil => exact total_pure []
  | cons first rest ih =>
    have later := ih fun a member => total a (by simp [member])
    exact (total first (by simp)).bind fun b => later.bind fun bs => total_pure _

/-- A run that does not fail at its end does not fail on the way. -/
theorem mapM_safe_each (total : ∀ a ∈ inputs, (f a).Total) (safe : ¬ (mapM f inputs).Fails) :
    ∀ a ∈ inputs, ¬ (f a).Fails := by
  induction inputs with
  | nil => simp
  | cons first rest ih =>
    simp only [mapM_cons, bind_fails, pure_fails, and_false, exists_false, or_false, not_or,
      not_exists, not_and] at safe
    obtain ⟨b, yields⟩ := (total first (by simp)).resolve_left safe.1
    intro a member
    rcases List.mem_cons.mp member with rfl | later
    · exact safe.1
    · exact ih (fun a member => total a (by simp [member])) (safe.2 b yields) a later

theorem bind_congr_safe {m m' : Outcomes α} {f g : α → Outcomes β} (safe : ¬ (bind m f).Fails)
    (first : ¬ m.Fails → m' = m) (next : ∀ a, m.Yields a → ¬ (f a).Fails → g a = f a) :
    bind m' g = bind m f := by
  rw [bind_fails, not_or, not_exists] at safe
  rw [first safe.1]
  exact bind_congr fun a yields => next a yields fun fails => safe.2 a ⟨yields, fails⟩

theorem mapM_congr_safe {f g : α → Outcomes β} (total : ∀ a ∈ inputs, (f a).Total)
    (safe : ¬ (mapM f inputs).Fails) (same : ∀ a ∈ inputs, ¬ (f a).Fails → g a = f a) :
    mapM g inputs = mapM f inputs :=
  mapM_congr fun a member => same a member (mapM_safe_each total safe a member)

end Outcomes
