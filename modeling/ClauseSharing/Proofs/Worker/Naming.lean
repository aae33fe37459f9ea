import ClauseSharing.Proofs.Worker.WellFormed

/-!
External and internal names are inverse to each other.

Two maps are kept, from external variables to variables and back. However variables are registered
and renamed, each map says the same as the other (`Names.Inverse`, `Names.Reached.inverse`), so an
external literal stands for a literal exactly if it is the name of that literal
(`Names.Inverse.resolve_eq_some_iff`). `Names.Renaming` lists what a call to rename a variable can
come to. Everything about sequences of such calls is put together in
`Names.names_inverse_and_stable`.
-/

namespace ClauseSharing

namespace Names

instance : Std.LawfulEqCmp compareNames :=
  inferInstanceAs (Std.LawfulEqCmp (compare : Nat → Nat → Ordering))

theorem getElem?_insert_internal (m : Std.TreeMap Nat Variable compareNames) (name other : Nat)
    (v : Variable) : (m.insert name v)[other]? = if name = other then some v else m[other]? := by
  simp only [Std.TreeMap.getElem?_insert, Std.LawfulEqCmp.compare_eq_iff_eq]

theorem getElem?_erase_internal (m : Std.TreeMap Nat Variable compareNames) (name other : Nat) :
    (m.erase name)[other]? = if name = other then none else m[other]? := by
  simp only [Std.TreeMap.getElem?_erase, Std.LawfulEqCmp.compare_eq_iff_eq]

variable {names names' : Names}

/-! ## Inverse maps -/

/-- Both maps say the same, about external variables that fit into a positive 32-bit number. -/
structure Inverse (names : Names) : Prop where
  owner_iff : ∀ (external : Nat) (v : Variable),
    names.internal[external]? = some v ↔ names.external.get? v = some (some external)
  in_range : ∀ (external : Nat) (v : Variable),
    names.internal[external]? = some v → 1 ≤ external ∧ external ≤ maxExternal

theorem inverse_empty : Inverse .empty where
  owner_iff external v := by simp [empty, PerVariable.get?, PerVariable.empty]
  in_range external v h := by simp [empty] at h

namespace Inverse

/-- Known external variables belong to variables that have a slot. -/
theorem closed (h : names.Inverse) : names.Closed :=
  fun external v hv => PerVariable.has_of_get? ((h.owner_iff external v).mp hv)

/-- A variable has one name. -/
theorem eq_of_owner (h : names.Inverse) {external other : Nat} {v : Variable}
    (hv : names.internal[external]? = some v) (hv' : names.internal[other]? = some v) :
    external = other := by
  rw [h.owner_iff] at hv hv'
  rw [hv] at hv'
  exact Option.some.inj (Option.some.inj hv')

/-- A new variable without name changes nothing for the others. -/
theorem extend_none (h : names.Inverse) :
    Inverse { names with external := names.external.extend 1 none } where
  owner_iff external v := by
    rw [h.owner_iff, PerVariable.get?_extend_one]
    split
    · next hnew => simp [PerVariable.get?_eq_none_of_size_le (Nat.le_of_eq hnew.symm)]
    · rfl
  in_range := h.in_range

/-- A new variable that is named by a free number. -/
theorem extend_named (h : names.Inverse) {v : Variable} (hv : v.index = names.external.size)
    {name : Nat} (free : names.internal[name]? = none) (hname : 1 ≤ name ∧ name ≤ maxExternal) :
    Inverse
      { internal := names.internal.insert name v
        external := names.external.extend 1 (some name) } where
  owner_iff external u := by
    rw [getElem?_insert_internal, PerVariable.get?_extend_one]
    by_cases hu : u = v
    · subst hu
      have hother : names.internal[external]? ≠ some u := by
        rw [ne_eq, h.owner_iff, PerVariable.get?_eq_none_of_size_le (Nat.le_of_eq hv.symm)]
        exact nofun
      by_cases he : name = external
      · simp [he, hv]
      · simp [he, hv, hother]
    · have hindex : u.index ≠ names.external.size := fun e => hu (Variable.ext (e.trans hv.symm))
      have hne : names.external.get? u ≠ some (some name) := by
        rw [ne_eq, ← h.owner_iff, free]
        exact nofun
      by_cases he : name = external
      · subst he
        simp [hindex, Ne.symm hu, hne]
      · simp [hindex, he, h.owner_iff]
  in_range external u hu := by
    rw [getElem?_insert_internal] at hu
    split at hu
    · next he => exact he ▸ hname
    · exact h.in_range external u hu

theorem registerOne (h : names.Inverse) : names.registerOne.Inverse := by
  unfold Names.registerOne
  split
  · exact h.extend_none
  · next v hv =>
    obtain ⟨hindex, hmax⟩ := Variable.ofIndex?_eq_some_iff.mp hv
    split
    · exact h.extend_none
    · next hfree =>
      refine h.extend_named hindex ?_ ?_
      · rw [Std.TreeMap.contains_eq_isSome_getElem?] at hfree
        exact Option.not_isSome_iff_eq_none.mp hfree
      · unfold Variable.number maxExternal
        unfold Variable.maxCount at hmax
        omega

theorem register (h : names.Inverse) (n : Nat) : (names.register n).Inverse := by
  induction n generalizing names with
  | zero => exact h
  | succ n ih => exact ih h.registerOne

end Inverse

/-- Registering a variable leaves the names of the others. -/
theorem get?_registerOne {v : Variable} (hv : names.external.has v = true) :
    names.registerOne.external.get? v = names.external.get? v := by
  have hlt := PerVariable.has_iff.mp hv
  unfold registerOne
  split
  · rw [PerVariable.get?_extend, if_pos hlt]
  · split <;> rw [PerVariable.get?_extend, if_pos hlt]

theorem get?_register (n : Nat) {v : Variable} (hv : names.external.has v = true) :
    (names.register n).external.get? v = names.external.get? v := by
  induction n generalizing names with
  | zero => rfl
  | succ n ih =>
    have hnext : names.registerOne.external.has v = true := by
      rw [PerVariable.has_iff, size_registerOne]
      exact Nat.lt_succ_of_lt (PerVariable.has_iff.mp hv)
    exact (ih hnext).trans (get?_registerOne hv)

/-! ## Renaming -/

/-- The names once a variable with the given previous name has been named by a free external
variable. -/
def give (names : Names) (external : Nat) (v : Variable) (previous : Option Nat) : Names where
  internal :=
    (match previous with
      | some name => names.internal.erase name
      | none => names.internal).insert external v
  external := names.external.set v (some external)

/-- What a call to name a variable by an external variable can come to: the names that it leaves and
its answer. -/
inductive Renaming (names : Names) (external : Nat) (v : Variable) :
    Names → Except Refusal Unit → Prop
  | impossible (out : external = 0 ∨ maxExternal < external) :
      Renaming names external v names (.error (.impossibleName external))
  | kept (inRange : 1 ≤ external ∧ external ≤ maxExternal)
      (own : names.internal[external]? = some v) : Renaming names external v names (.ok ())
  | taken {owner : Variable} (inRange : 1 ≤ external ∧ external ≤ maxExternal)
      (other : names.internal[external]? = some owner) (ne : owner ≠ v) :
      Renaming names external v names (.error (.nameTaken external))
  | given {previous : Option Nat} (inRange : 1 ≤ external ∧ external ≤ maxExternal)
      (free : names.internal[external]? = none)
      (before : names.external.get? v = some previous) :
      Renaming names external v (names.give external v previous) (.ok ())

theorem renaming_of_rename {external : Nat} {v : Variable} {result : Except Refusal Unit}
    (h : names.rename external v = .ok (names', result)) :
    Renaming names external v names' result := by
  unfold rename at h
  split at h
  · next hout =>
    cases h
    exact .impossible hout
  next hin =>
  have hrange : 1 ≤ external ∧ external ≤ maxExternal :=
    ⟨Nat.pos_of_ne_zero fun hzero => hin (.inl hzero), Nat.le_of_not_lt fun hlt => hin (.inr hlt)⟩
  split at h
  · next owner howner =>
    split at h
    · next hown =>
      cases h
      exact .kept hrange (hown ▸ howner)
    · next hne =>
      cases h
      exact .taken hrange howner hne
  · next hfree =>
    obtain ⟨previous, hprevious, h⟩ := bind_eq_ok_iff.mp h
    cases h
    exact .given hrange hfree (PerVariable.fetch_eq_ok_iff.mp hprevious)

/-- For a variable with a slot, the call answers. -/
theorem exists_rename_eq_ok (external : Nat) {v : Variable} (hv : names.external.has v = true) :
    ∃ names' result, names.rename external v = .ok (names', result) := by
  obtain ⟨previous, hprevious⟩ := PerVariable.exists_get? hv
  unfold rename
  rw [PerVariable.fetch_eq_ok_iff.mpr hprevious]
  split
  · exact ⟨_, _, rfl⟩
  · split
    · split <;> exact ⟨_, _, rfl⟩
    · exact ⟨_, _, rfl⟩

/-- The name is possible, and free or the variable's own. -/
def Admits (names : Names) (external : Nat) (v : Variable) : Prop :=
  1 ≤ external ∧ external ≤ maxExternal ∧
    (names.internal[external]? = none ∨ names.internal[external]? = some v)

/-- The variable is named by the external variable and no other one is renamed. Of all other
external variables, the previous name has become unknown and the rest mean what they did. -/
structure NamedBy (names : Names) (external : Nat) (v : Variable) (names' : Names) : Prop where
  owner_eq : names'.internal[external]? = some v
  name_eq : names'.external.get? v = some (some external)
  others : ∀ other ≠ external, names'.internal[other]? =
    if names.external.get? v = some (some other) then none else names.internal[other]?
  slots : ∀ u ≠ v, names'.external.get? u = names.external.get? u

theorem NamedBy.inverse {external : Nat} {v : Variable} (h : NamedBy names external v names')
    (hnames : names.Inverse) (hadmits : names.Admits external v) : names'.Inverse where
  owner_iff other u := by
    by_cases hu : u = v
    · subst hu
      rw [h.name_eq]
      by_cases hother : other = external
      · simp [hother, h.owner_eq]
      · have hne : some (some external) ≠ some (some other) := by simpa using Ne.symm hother
        rw [h.others other hother, iff_false_right hne]
        split
        · exact nofun
        · next hprevious => exact fun hv => hprevious ((hnames.owner_iff other u).mp hv)
    · rw [h.slots u hu]
      by_cases hother : other = external
      · have hne : names.external.get? u ≠ some (some other) := by
          rw [ne_eq, ← hnames.owner_iff, hother]
          rcases hadmits.2.2 with hfree | hown
          · rw [hfree]
            exact nofun
          · rw [hown]
            exact fun e => hu (Option.some.inj e).symm
        simp [hother ▸ hne, hother, h.owner_eq, Ne.symm hu]
      · rw [h.others other hother, ← hnames.owner_iff other u]
        split
        · next hprevious =>
          rw [(hnames.owner_iff other v).mpr hprevious]
          simp [Ne.symm hu]
        · rfl
  in_range other u hu := by
    by_cases hother : other = external
    · exact hother ▸ ⟨hadmits.1, hadmits.2.1⟩
    · rw [h.others other hother] at hu
      split at hu
      · cases hu
      · exact hnames.in_range other u hu

namespace Renaming

variable {external : Nat} {v : Variable} {result : Except Refusal Unit}

theorem result_iff (h : Renaming names external v names' result) :
    result = .ok () ↔ names.Admits external v := by
  unfold Admits
  cases h with
  | impossible hout =>
    simp only [reduceCtorEq, false_iff]
    omega
  | kept hrange hown => simp [hrange, hown]
  | taken hrange howner hne => simp [howner, hne]
  | given hrange hfree hbefore => simp [hrange, hfree]

theorem eq_of_refused (h : Renaming names external v names' result) (hresult : result ≠ .ok ()) :
    names' = names := by
  cases h with
  | impossible | taken => rfl
  | kept | given => exact absurd rfl hresult

theorem namedBy (h : Renaming names external v names' result) (hnames : names.Inverse)
    (hresult : result = .ok ()) : NamedBy names external v names' := by
  cases h with
  | impossible | taken => cases hresult
  | kept hrange hown =>
    refine ⟨hown, (hnames.owner_iff external v).mp hown, fun other hne => ?_, fun _ _ => rfl⟩
    -- The previous name is the same one, so it is no other external variable.
    rw [if_neg]
    intro hother
    exact hne (hnames.eq_of_owner ((hnames.owner_iff other v).mpr hother) hown)
  | @given previous hrange hfree hbefore =>
    refine ⟨?_, ?_, fun other hne => ?_, fun u hu => ?_⟩
    · exact (getElem?_insert_internal ..).trans (if_pos rfl)
    · exact (PerVariable.get?_set ..).trans (if_pos ⟨rfl, PerVariable.has_of_get? hbefore⟩)
    · refine (getElem?_insert_internal ..).trans ((if_neg (Ne.symm hne)).trans ?_)
      rw [hbefore]
      cases previous with
      | none => simp
      | some name => simp [getElem?_erase_internal]
    · exact (PerVariable.get?_set ..).trans (if_neg fun h => hu h.1.symm)

theorem inverse (h : Renaming names external v names' result) (hnames : names.Inverse) :
    names'.Inverse := by
  by_cases hresult : result = .ok ()
  · exact (h.namedBy hnames hresult).inverse hnames (h.result_iff.mp hresult)
  · rw [h.eq_of_refused hresult]
    exact hnames

end Renaming

/-! ## External literals -/

/-- External variables are numbers that fit, so the sign can be read off a literal's name. -/
theorem toInt_ofInt_name {name : Nat} (h : name ≤ maxExternal) (positive : Bool) :
    (Int32.ofInt (if positive then (name : Int) else -name)).toInt =
      if positive then (name : Int) else -name := by
  unfold maxExternal at h
  cases positive <;> apply Int32.toInt_ofInt_of_le <;> grind

namespace Inverse

/-- An external literal stands for a literal exactly if it is the name of that literal. -/
theorem resolve_eq_some_iff (h : names.Inverse) {external : Int32} {l : Literal} :
    names.resolve external = some l ↔ names.nameOf l = some external := by
  have hsign : 0 < external ↔ 0 < external.toInt := Int32.lt_iff_toInt_lt
  unfold resolve nameOf PerVariable.getD
  simp only [Option.map_eq_some_iff]
  constructor
  · rintro ⟨v, hv, rfl⟩
    obtain ⟨hpos, -⟩ := h.in_range _ v hv
    rw [Literal.var_ofVariable, Literal.isPositive_ofVariable, (h.owner_iff _ v).mp hv]
    refine ⟨external.toInt.natAbs, rfl, ?_⟩
    have hvalue : (if decide (0 < external) = true then (external.toInt.natAbs : Int)
        else -external.toInt.natAbs) = external.toInt := by
      simp only [decide_eq_true_eq, hsign]
      split <;> omega
    rw [hvalue, Int32.ofInt_toInt]
  · rintro ⟨name, hname, rfl⟩
    have howner : names.internal[name]? = some l.var := by
      rw [h.owner_iff]
      cases hget : names.external.get? l.var with
      | none => simp [hget] at hname
      | some slot => simpa [hget] using hname
    obtain ⟨hpos, hmax⟩ := h.in_range name l.var howner
    have hvalue := toInt_ofInt_name hmax l.isPositive
    refine ⟨l.var, ?_, ?_⟩
    · rw [hvalue]
      have habs : (if l.isPositive = true then (name : Int) else -name).natAbs = name := by
        split <;> omega
      rwa [habs]
    · have hpositive : decide ((0 : Int32) <
          Int32.ofInt (if l.isPositive = true then (name : Int) else -name)) = l.isPositive := by
        rw [Bool.eq_iff_iff, decide_eq_true_eq, hsign, hvalue]
        cases l.isPositive with
        | true => simpa using Nat.lt_of_succ_le hpos
        | false => simp
      rw [hpositive, Literal.ofVariable_var]

theorem has_of_resolve (h : names.Inverse) {external : Int32} {l : Literal}
    (hl : names.resolve external = some l) : names.external.has l.var = true :=
  h.closed.has_of_resolve hl

/-- The negation of an external literal stands for the negation of its literal. The least number has
no negation. -/
theorem resolve_neg (h : names.Inverse) {external : Int32} (hmin : external ≠ Int32.minValue) :
    names.resolve (-external) = (names.resolve external).map Literal.negate := by
  have hneg := Literal.toInt_neg_of_ne_minValue hmin
  unfold resolve
  rw [hneg, Int.natAbs_neg]
  cases howner : names.internal[external.toInt.natAbs]? with
  | none => rfl
  | some v =>
    obtain ⟨hpos, -⟩ := h.in_range _ v howner
    have hflip : decide ((0 : Int32) < -external) = !decide ((0 : Int32) < external) := by
      rw [Bool.eq_iff_iff]
      simp only [Bool.not_eq_true', decide_eq_false_iff_not, decide_eq_true_eq,
        Int32.lt_iff_toInt_lt, hneg]
      have hzero : (0 : Int32).toInt = 0 := rfl
      omega
    simp [Literal.eq_iff, hflip]

end Inverse

/-! ## Main statement -/

/-- Names that registering and renaming lead to, whether a renaming is accepted or refused. -/
inductive Reached : Names → Prop
  | empty : Reached .empty
  | register {names : Names} (n : Nat) (before : Reached names) : Reached (names.register n)
  | rename {names names' : Names} {external : Nat} {v : Variable} {result : Except Refusal Unit}
      (before : Reached names) (renamed : names.rename external v = .ok (names', result)) :
      Reached names'

theorem Reached.inverse (h : names.Reached) : names.Inverse := by
  induction h with
  | empty => exact inverse_empty
  | register n _ ih => exact ih.register n
  | rename _ renamed ih => exact (renaming_of_rename renamed).inverse ih

/-- After any sequence of registrations and renamings, an external literal stands for a literal
exactly if it is the name of that literal, it then belongs to a registered variable, and negations
correspond. A registered variable can be named by an external variable exactly if that is possible
and free or the variable's own; the call answers in any case, changes no more than it has to, and
nothing if it is refused. Registering more variables changes no name. -/
theorem names_inverse_and_stable (h : names.Reached) :
    (∀ external l, names.resolve external = some l ↔ names.nameOf l = some external) ∧
    (∀ external l, names.resolve external = some l → names.external.has l.var = true) ∧
    (∀ external, external ≠ Int32.minValue →
      names.resolve (-external) = (names.resolve external).map Literal.negate) ∧
    (∀ external v, names.external.has v = true →
      ∃ names' result, names.rename external v = .ok (names', result) ∧
        (result = .ok () ↔ names.Admits external v) ∧
        (result = .ok () → NamedBy names external v names') ∧
        (result ≠ .ok () → names' = names)) ∧
    ∀ n l, names.external.has l.var = true → (names.register n).nameOf l = names.nameOf l := by
  have hinverse := h.inverse
  refine ⟨fun _ _ => hinverse.resolve_eq_some_iff, fun _ _ => hinverse.has_of_resolve,
    fun _ => hinverse.resolve_neg, ?_, ?_⟩
  · intro external v hv
    obtain ⟨names', result, hrename⟩ := exists_rename_eq_ok external hv
    have hrenaming := renaming_of_rename hrename
    exact ⟨names', result, hrename, hrenaming.result_iff, hrenaming.namedBy hinverse,
      hrenaming.eq_of_refused⟩
  · intro n l hl
    rw [nameOf, nameOf, PerVariable.getD, PerVariable.getD, get?_register n hl]

/-- The first variable takes the number of the second one, which then has no name. -/
def takenNumber : Names :=
  ((empty.register 1).give 2 .first (some 1)).register 1

theorem names_inverse_and_stable_takenNumber :
    takenNumber.Reached ∧
    takenNumber.resolve 2 = some (.ofVariable .first true) ∧
    takenNumber.resolve (-2) = some (.ofVariable .first false) ∧
    takenNumber.nameOf (.ofVariable .second true) = none ∧
    ∃ names', takenNumber.rename 1 .second = .ok (names', .ok ()) ∧
      names'.internal[1]? = some .second := by
  have hrename : (empty.register 1).rename 2 .first =
      .ok ((empty.register 1).give 2 .first (some 1), .ok ()) := rfl
  have hreached : takenNumber.Reached := .register 1 (.rename (.register 1 .empty) hrename)
  obtain ⟨hresolve, -, hneg, hrename, -⟩ := names_inverse_and_stable hreached
  have hfirst : takenNumber.resolve 2 = some (.ofVariable .first true) :=
    (hresolve _ _).mpr (by decide +kernel)
  refine ⟨hreached, hfirst, ?_, by decide +kernel, ?_⟩
  · rw [hneg 2 (by decide), hfirst]
    decide +kernel
  · obtain ⟨names', result, heq, hanswer, hnamed, -⟩ :=
      hrename 1 .second (by decide +kernel)
    have hok : result = .ok () := hanswer.mpr (by unfold Admits; decide +kernel)
    subst hok
    exact ⟨names', heq, (hnamed rfl).owner_eq⟩

end Names

/-! ## Workers -/

namespace Core

theorem names_assign (c : Core) (l : Literal) (reason : Reason) :
    (c.assign l reason).1.names = c.names := by
  rcases c.assign_cases l reason with ⟨-, h⟩ | ⟨-, h⟩ | ⟨-, h⟩
  all_goals rw [h]

theorem names_insertClause (c : Core) (clause : StoredClause) :
    (c.insertClause clause).names = c.names := by
  obtain ⟨_, _, h⟩ := c.insertClause_eq clause
  rw [h]

theorem names_retire (c : Core) (v : Variable) (state : Participation) :
    (c.retire v state).names = c.names := by
  unfold retire
  split <;> rfl

theorem names_assertClause (c : Core) (literals : List Literal) :
    (c.assertClause literals).names = c.names := by
  unfold assertClause
  split
  · rfl
  · exact names_assign ..
  · exact names_insertClause ..

theorem names_run {K : Type} [Scalar K] (s : Selector K) (probabilities : LiteralLikelihood K)
    (c : Core) (batch : List (List Int32)) : (s.run probabilities c batch).1.names = c.names :=
  Selector.run_induction (P := fun d : Core => d.names = c.names)
    (fun d _ l _ h => (names_assign d l .propagation).trans h)
    (fun d _ h => (names_insertClause d _).trans h) s probabilities rfl batch

end Core

namespace Worker

variable {K R : Type} [Scalar K] {w : Worker K R}

variable [Recorder R K]

/-- The names of every reachable worker come about by registering and renaming. -/
theorem Reachable.names {settings : Settings K} (h : Reachable settings w) :
    w.core.names.Reached := by
  refine h.core_induction (P := fun c => c.names.Reached) .empty ?_
  intro w op c hevolves hnames
  cases hevolves with
  | registers => exact hnames.register _
  | renames renamed => exact hnames.rename renamed
  | stays | forbids | decides | backjumps | traces => exact hnames
  | retires =>
    rw [Core.names_retire]
    exact hnames
  | assigns =>
    rw [Core.names_assign]
    exact hnames
  | asserts =>
    rw [Core.names_assertClause]
    exact hnames
  | learns =>
    rw [Core.names_insertClause]
    exact hnames
  | passes =>
    rw [Core.names_run]
    exact hnames

end Worker

end ClauseSharing
