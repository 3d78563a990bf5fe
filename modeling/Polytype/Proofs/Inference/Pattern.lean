import Polytype.Inference.Pattern
import Polytype.Proofs.Env.Reading
import Polytype.Proofs.Inference.Yields
import Polytype.Proofs.Program.Induction
import Polytype.Proofs.Typing.Substitution

namespace Polytype

open Ty

def PatternBindings.read (θ : Nat → Ty) (bound : PatternBindings) : List (String × Ty) :=
  Assoc.mapValues (fun b => b.1.subst θ) bound

namespace World

open Infer

variable {w : World} {env : Env}

/-! ## Fields -/

theorem defines_none (w : World) : w.Defines fun _ => none :=
  ⟨fun _ _ h => by simp at h, fun _ _ _ h => by simp at h, fun _ _ _ _ h => by simp at h,
    fun _ _ => rfl⟩

theorem good_record {fields : List (String × Ty)} (records : ¬w.plain)
    (h : ∀ field ∈ fields, w.Good field.2) : w.Good (.record fields) :=
  ⟨.record trivial fun field hf => (h field hf).1, fun plain => absurd plain records⟩

theorem good_field {fields : List (String × Ty)} (h : w.Good (.record fields)) {name : String}
    {t : Ty} (ht : Assoc.get? fields name = some t) : w.Good t :=
  Marks.hereditary_good.field h _ (Assoc.mem_of_get? ht)

theorem asks_of_apply {t : Ty} (ht : w.Good t) {v : TypeVar} (h : w.subst.apply t = .var v) :
    w.Asks v.id := by
  have hv : v ∈ (w.subst.apply t).vars := by simp [h, vars]
  have live := within_iff.1 (good_apply ht).within v hv
  exact fun _ hf => w.keeps.records live (within_iff.1 (w.resolved.settled_apply t) v hv) hf

theorem Asks.knownField {v : TypeVar} (asks : w.Asks v.id) {field : String} {t : Ty}
    (h : w.subst.knownField v field = some t) : w.Good t := by
  obtain ⟨u, hu, rfl⟩ := Option.map_eq_some_iff.1 h
  obtain ⟨fields, hfields, hu⟩ := Option.bind_eq_some_iff.1 hu
  exact good_apply (good_field (asks fields hfields) hu)

theorem yields_fieldOf (level : Nat) {v : TypeVar} (hv : w.Good (.var v)) (asks : w.Asks v.id)
    (field : String) (records : ¬w.plain) :
    w.Yields (fieldOf v field level) fun t w' => w'.Good t := by
  refine .getSubst ?_
  cases h : w.subst.knownField v field with
  | some t => exact .pure (asks.knownField h)
  | none =>
    refine (yields_fresh level).bind fun t w' later ⟨good, _⟩ => .getSubst ?_
    have records' : ¬w'.plain := fun plain => records (later.plain ▸ plain)
    have field : w'.Good (.record [(field, t)]) :=
      good_record records' (by simpa using good)
    refine (yields_setSubst (Subst.evolves_requireField w'.subst v _ t) w'.defines_none
      (by simp [later.good hv, field])).bind fun _ w'' later' _ => .pure (later'.good good)

theorem EnvGood.recordFields (h : w.EnvGood env) {t : Ty} (ht : w.Good t)
    {fields : List (String × Ty)} (hf : env.recordFields t = some fields) :
    w.Good (.record fields) :=
  Env.recordFields_induction (h.defines.good _ _) ht hf

/-! ## Names -/

theorem yields_bindName {name : String} {t : Ty} {span : Span} {bound : PatternBindings} :
    w.Yields (bindName name t span bound) fun bound' w' => w' = w ∧
      Assoc.get? bound name = none ∧ bound' = Assoc.insert bound name (t, span) := by
  unfold bindName
  split
  · exact .fail
  · rename_i h
    exact .pure ⟨rfl, h, rfl⟩

theorem yields_bindNames (names bound : PatternBindings) :
    w.Yields (bindNames names bound) fun bound' w' => w' = w ∧
      (∀ name ∈ Assoc.keys names, Assoc.get? bound name = none) ∧
        bound' = Assoc.insertAll bound names := by
  induction names generalizing bound with
  | nil => exact .pure ⟨rfl, by simp [Assoc.keys], rfl⟩
  | cons entry rest ih =>
    obtain ⟨name, t, span⟩ := entry
    refine yields_bindName.bind ?_
    rintro _ _ - ⟨rfl, hnone, rfl⟩
    refine (ih _).mono ?_
    rintro _ _ - ⟨rfl, hnew, rfl⟩
    refine ⟨rfl, fun other hother => ?_, rfl⟩
    rcases List.mem_cons.1 hother with rfl | hother
    · exact hnone
    · have := hnew other hother
      rw [Assoc.get?_insert] at this
      split at this
      · simp at this
      · exact this

theorem yields_unifyBindings (henv : w.EnvGood env) {first names : PatternBindings}
    (hfirst : ∀ entry ∈ first, w.Good entry.2.1) (hnames : ∀ entry ∈ names, w.Good entry.2.1) :
    w.Yields (unifyBindings env first names) fun _ w' => ∀ entry ∈ names, ∀ expected,
      Assoc.get? first entry.1 = some expected → w'.Equates expected.1 entry.2.1 := by
  induction names generalizing w with
  | nil => exact .pure (by simp)
  | cons entry rest ih =>
    obtain ⟨name, t, span⟩ := entry
    have after {w' : World} (later : Later w w')
        (heq : ∀ expected, Assoc.get? first name = some expected → w'.Equates expected.1 t) :
        w'.Yields (unifyBindings env first rest) fun _ w'' => ∀ entry ∈ (name, t, span) :: rest,
          ∀ expected, Assoc.get? first entry.1 = some expected →
            w''.Equates expected.1 entry.2.1 := by
      refine (ih (later.envGood henv) (fun entry hentry => later.good (hfirst entry hentry))
        fun entry hentry => later.good (hnames entry (List.mem_cons_of_mem _ hentry))).mono
        fun _ w'' later' rest => ?_
      intro entry hentry expected hexpected
      rcases List.mem_cons.1 hentry with rfl | hentry
      · exact later'.equates (heq expected hexpected)
      · exact rest entry hentry expected hexpected
    simp only [unifyBindings]
    split
    · rename_i expected other hexpected
      refine (yields_unifyAt henv span (hfirst _ (Assoc.mem_of_get? hexpected))
        (hnames _ List.mem_cons_self)).bind fun _ w' later heq => after later ?_
      intro found hfound
      obtain rfl : _ = found := Option.some.inj (hexpected.symm.trans hfound)
      exact heq
    · rename_i hnone
      exact after (.refl w) (by simp [hnone])

theorem read_eq {θ : Nat → Ty} {first names : PatternBindings} (hfirst : Assoc.Ascending first)
    (hnames : Assoc.Ascending names) (hkeys : Assoc.keys names = Assoc.keys first)
    (heq : ∀ entry ∈ names, ∀ expected, Assoc.get? first entry.1 = some expected →
      expected.1.subst θ = entry.2.1.subst θ) : names.read θ = first.read θ := by
  have ascending {bound : PatternBindings} (h : Assoc.Ascending bound) :
      Assoc.Ascending (bound.read θ) := h.map fun b : Ty × Span => b.1.subst θ
  refine Assoc.Ascending.ext (ascending hnames) (ascending hfirst) fun name => ?_
  unfold PatternBindings.read
  rw [Assoc.get?_mapValues, Assoc.get?_mapValues]
  cases hn : Assoc.get? names name with
  | none =>
    have : Assoc.get? first name = none := by
      rw [Assoc.get?_eq_none] at hn ⊢
      rwa [← hkeys]
    rw [this]
  | some entry =>
    cases hf : Assoc.get? first name with
    | none =>
      rw [Assoc.get?_eq_none, ← hkeys, ← Assoc.get?_eq_none] at hf
      simp [hf] at hn
    | some expected =>
      have := heq _ (Assoc.mem_of_get? hn) expected hf
      simp [this]

/-! ## Patterns -/

structure Bound (w : World) (env : Env) (p : Pattern) (t : Ty) (bound bound' : PatternBindings)
    (w' : World) : Prop where
  good : ∀ entry ∈ bound', w'.Good entry.2.1
  ascending : Assoc.Ascending bound → Assoc.Ascending bound'
  typed : w.plain → ∀ θ, Subst.Solves θ w'.subst →
    Matches (env.subst θ) p (t.subst θ) (bound.read θ) (bound'.read θ)

structure BoundAll (w : World) (env : Env) (ps : List Pattern) (ts : List Ty)
    (bound bound' : PatternBindings) (w' : World) : Prop where
  good : ∀ entry ∈ bound', w'.Good entry.2.1
  ascending : Assoc.Ascending bound → Assoc.Ascending bound'
  typed : w.plain → ∀ θ, Subst.Solves θ w'.subst →
    MatchesAll (env.subst θ) ps (ts.map (Ty.subst θ)) (bound.read θ) (bound'.read θ)

def PatternSound (env : Env) (level : Nat) (p : Pattern) : Prop :=
  ∀ (w : World) (t : Ty) (bound : PatternBindings), w.EnvGood env → (w.plain → p.Plain) →
    w.Good t → (∀ entry ∈ bound, w.Good entry.2.1) →
      w.Yields (pattern env level p t bound) (w.Bound env p t bound)

variable {level : Nat}

theorem yields_patterns {ps : List Pattern} (ih : ∀ p ∈ ps, PatternSound env level p) {ts : List Ty}
    (hlength : ps.length = ts.length) {bound : PatternBindings} (henv : w.EnvGood env)
    (hplain : w.plain → ∀ p ∈ ps, p.Plain) (hts : ∀ t ∈ ts, w.Good t)
    (hbound : ∀ entry ∈ bound, w.Good entry.2.1) :
    w.Yields (patterns env level ps ts bound) (w.BoundAll env ps ts bound) := by
  induction ps generalizing ts w bound with
  | nil =>
    obtain rfl := List.eq_nil_of_length_eq_zero hlength.symm
    simp only [patterns]
    exact .pure ⟨hbound, fun h => h, fun _ _ _ => .nil⟩
  | cons p ps ihRest =>
    cases ts with
    | nil => simp at hlength
    | cons t ts =>
      simp only [patterns]
      refine (ih p List.mem_cons_self w t bound henv
        (fun plain => hplain plain p List.mem_cons_self) (hts t List.mem_cons_self) hbound).bind
        fun bound' w' later first => ?_
      refine (ihRest (fun p hp => ih p (List.mem_cons_of_mem _ hp)) (by simpa using hlength)
        (later.envGood henv) (fun plain p hp => hplain (later.plain ▸ plain) p
          (List.mem_cons_of_mem _ hp)) (fun t ht => later.good (hts t (List.mem_cons_of_mem _ ht)))
        first.good).mono fun bound'' w'' later' rest => ?_
      refine ⟨rest.good, fun h => rest.ascending (first.ascending h), fun plain θ solves => ?_⟩
      exact .cons (first.typed plain θ (solves.trans later'.solves))
        (rest.typed (later.plain ▸ plain) θ solves)

theorem yields_openFields {v : TypeVar} (hv : w.Good (.var v)) (asks : w.Asks v.id)
    (records : ¬w.plain) {fields : List FieldPattern}
    (ih : ∀ field ∈ fields, PatternSound env level field.pattern) {bound : PatternBindings}
    (henv : w.EnvGood env) (hbound : ∀ entry ∈ bound, w.Good entry.2.1) :
    w.Yields (openFields env level v fields bound) fun bound' w' =>
      (∀ entry ∈ bound', w'.Good entry.2.1) ∧ (Assoc.Ascending bound → Assoc.Ascending bound') := by
  induction fields generalizing w bound with
  | nil =>
    simp only [openFields]
    exact .pure ⟨hbound, fun h => h⟩
  | cons field rest ihRest =>
    obtain ⟨name, p, span⟩ := field
    simp only [openFields]
    refine (yields_fieldOf level hv asks name records).bind fun t w' later good => ?_
    have asked := later.asks _ (everywhere_var.1 hv.1).1 asks
    have records' : ¬w'.plain := fun plain => records (later.plain ▸ plain)
    refine (ih _ List.mem_cons_self w' t bound (later.envGood henv)
      (fun plain => absurd plain records') good
      fun entry hentry => later.good (hbound entry hentry)).bind fun bound' w'' later' first => ?_
    have hv' := later.good hv
    refine (ihRest (later'.good hv') (later'.asks _ (everywhere_var.1 hv'.1).1 asked)
      (fun plain => records' (later'.plain ▸ plain))
      (fun field hf => ih field (List.mem_cons_of_mem _ hf)) (later'.envGood (later.envGood henv))
      first.good).mono fun bound'' _ _ ⟨good, ascending⟩ => ?_
    exact ⟨good, fun h => ascending (first.ascending h)⟩

theorem yields_declaredFields {record : Ty} {declared : List (String × Ty)}
    (hdeclared : w.Good (.record declared)) (records : ¬w.plain) {fields : List FieldPattern}
    (ih : ∀ field ∈ fields, PatternSound env level field.pattern) {bound : PatternBindings}
    (henv : w.EnvGood env) (hbound : ∀ entry ∈ bound, w.Good entry.2.1) :
    w.Yields (declaredFields env level record declared fields bound) fun bound' w' =>
      (∀ entry ∈ bound', w'.Good entry.2.1) ∧ (Assoc.Ascending bound → Assoc.Ascending bound') := by
  induction fields generalizing w bound with
  | nil =>
    simp only [declaredFields]
    exact .pure ⟨hbound, fun h => h⟩
  | cons field rest ihRest =>
    obtain ⟨name, p, span⟩ := field
    simp only [declaredFields]
    split
    · rename_i t ht
      refine (ih _ List.mem_cons_self w t bound henv (fun plain => absurd plain records)
        (good_field hdeclared ht) hbound).bind fun bound' w' later first => ?_
      refine (ihRest (later.good hdeclared) (fun plain => records (later.plain ▸ plain))
        (fun field hf => ih field (List.mem_cons_of_mem _ hf)) (later.envGood henv)
        first.good).mono fun bound'' w'' _ ⟨good, ascending⟩ => ?_
      exact ⟨good, fun h => ascending (first.ascending h)⟩
    · exact (yields_fresh level).bind fun _ _ _ _ => .fail

theorem yields_alternatives {firstSpan : Span} {first : PatternBindings}
    (ascending : Assoc.Ascending first) {ps : List Pattern}
    (ih : ∀ p ∈ ps, PatternSound env level p) {t : Ty} (henv : w.EnvGood env)
    (hplain : w.plain → ∀ p ∈ ps, p.Plain) (ht : w.Good t)
    (hfirst : ∀ entry ∈ first, w.Good entry.2.1) :
    w.Yields (alternatives env level firstSpan first ps t) fun _ w' => w.plain → ∀ θ,
      Subst.Solves θ w'.subst → ∀ p ∈ ps, Matches (env.subst θ) p (t.subst θ) [] (first.read θ) := by
  induction ps generalizing w with
  | nil =>
    simp only [alternatives]
    exact .pure (by simp)
  | cons p ps ihRest =>
    simp only [alternatives]
    refine (ih p List.mem_cons_self w t [] henv (fun plain => hplain plain p List.mem_cons_self) ht
      (by simp)).bind fun names w' later found => ?_
    split
    · rename_i hkeys
      refine (yields_unifyBindings (later.envGood henv)
        (fun entry hentry => later.good (hfirst entry hentry)) found.good).bind
        fun _ w'' later' same => ?_
      have later'' := later.trans later'
      refine (ihRest (fun p hp => ih p (List.mem_cons_of_mem _ hp)) (later''.envGood henv)
        (fun plain p hp => hplain (later''.plain ▸ plain) p (List.mem_cons_of_mem _ hp))
        (later''.good ht) fun entry hentry => later''.good (hfirst entry hentry)).mono
        fun _ _ last rest plain θ solves q hq => ?_
      rcases List.mem_cons.1 hq with rfl | hq
      · have solves' := solves.trans last.solves
        have matched := found.typed plain θ (solves'.trans later'.solves)
        rwa [read_eq ascending (found.ascending .nil) hkeys fun entry hentry expected hexpected =>
          same entry hentry expected hexpected (later''.plain ▸ plain) θ solves'] at matched
      · exact rest (later''.plain ▸ plain) θ solves q hq
    · exact .fail

theorem yields_freshFields (fields : List FieldPattern) :
    w.Yields (freshFields level fields) fun _ _ => True := by
  induction fields generalizing w with
  | nil => exact .pure trivial
  | cons field rest ih =>
    simp only [freshFields]
    exact (yields_fresh level).bind fun _ _ _ _ => ih.bind fun _ _ _ _ => .pure trivial

theorem yields_tupleArity (t : Ty) (arity : Nat) (span : Span) :
    w.Yields (tupleArity t arity span) fun _ _ => True := by
  refine .resolved ?_
  split
  · split
    · exact .pure trivial
    · exact .fail
  · exact .pure trivial

theorem constructor_instance {c : Constructor} (hc : w.ConstructorGood c) {types : List Ty}
    (apart : ∀ p ∈ c.params, ∀ u ∈ types, u.mentions p.id = false) (θ : Nat → Ty) :
    c.Instance ((c.args.map (Subst.ofPairs (c.params.zip types)).apply).map (Ty.subst θ))
      (((Subst.ofPairs (c.params.zip types)).apply c.result).subst θ) := by
  let η : Nat → Ty := fun id =>
    if c.params.any (·.id == id) then ((Subst.ofPairs (c.params.zip types)).image id).subst θ
    else ofId id
  have same : ∀ t ∈ c.result :: c.args,
      ((Subst.ofPairs (c.params.zip types)).apply t).subst θ = t.subst η := by
    intro t ht
    rw [Subst.subst_instance apart]
    refine subst_congr fun v hv => ?_
    obtain ⟨p, hp, hid⟩ := hc.closed t ht v hv
    have bound : c.params.any (·.id == v.id) = true := by
      simp only [List.any_eq_true, beq_iff_eq]
      exact ⟨p, hp, hid⟩
    exact (if_pos bound).symm
  refine ⟨η, fun id hid => if_neg (by simpa using hid), ?_, same _ List.mem_cons_self⟩
  · rw [List.map_map]
    exact List.map_congr_left fun t ht => same t (List.mem_cons_of_mem _ ht)

theorem constructor_good {c : Constructor} (hc : w.ConstructorGood c) {types : List Ty}
    (apart : ∀ p ∈ c.params, ∀ u ∈ types, u.mentions p.id = false)
    (hlength : c.params.length = types.length) (htypes : ∀ u ∈ types, w.Good u) :
    ∀ t ∈ c.result :: c.args, w.Good ((Subst.ofPairs (c.params.zip types)).apply t) := by
  intro t ht
  refine good_instance apart hlength htypes (fun v hv hnew => ?_) fun plain => hc.recordless plain t ht
  obtain ⟨p, hp, hid⟩ := hc.closed t ht v hv
  exact absurd hid (hnew p hp)

theorem read_insert (θ : Nat → Ty) (bound : PatternBindings) (name : String) (t : Ty) (span : Span) :
    PatternBindings.read θ (Assoc.insert bound name (t, span)) =
      Assoc.insert (bound.read θ) name (t.subst θ) :=
  Assoc.mapValues_insert _ _ _ _

theorem get?_read {θ : Nat → Ty} {bound : PatternBindings} {name : String}
    (h : Assoc.get? bound name = none) : Assoc.get? (bound.read θ) name = none := by
  unfold PatternBindings.read
  rw [Assoc.get?_mapValues, h]
  rfl

theorem patternSound (p : Pattern) : PatternSound env level p := by
  induction p using Pattern.induct with
  | wild span =>
    intro w t bound henv hplain ht hbound
    simp only [pattern]
    exact .pure ⟨hbound, fun h => h, fun _ _ _ => .wild⟩
  | var name =>
    intro w t bound henv hplain ht hbound
    simp only [pattern]
    refine yields_bindName.mono ?_
    rintro _ w' - ⟨rfl, hnone, rfl⟩
    refine ⟨fun entry hentry => ?_, fun h => h.insert, fun _ θ _ => ?_⟩
    · rcases Assoc.mem_of_mem_insert hentry with rfl | hentry
      · exact ht
      · exact hbound entry hentry
    · rw [read_insert]
      exact .var (get?_read hnone)
  | literal value span =>
    intro w t bound henv hplain ht hbound
    simp only [pattern]
    refine (yields_unifyAt henv span ht (good_literal value)).bind fun _ w' later heq => .pure ?_
    refine ⟨fun entry hentry => later.good (hbound entry hentry), fun h => h, fun plain θ solves => ?_⟩
    rw [heq (later.plain ▸ plain) θ solves, subst_literal]
    exact .literal
  | constructor name args span ih =>
    intro w t bound henv hplain ht hbound
    simp only [pattern]
    split
    · exact .fail
    · rename_i c hc
      split
      · rename_i harity
        have good := henv.constructor? hc
        refine (yields_freshParams level good.bound).bind
          fun types w' later ⟨hlength, htypes, apart⟩ => ?_
        have parts := constructor_good (later.constructorGood good) apart hlength htypes
        refine (yields_unifyAt (later.envGood henv) span (later.good ht)
          (parts _ List.mem_cons_self)).bind fun _ w'' later' heq => ?_
        have later'' := later.trans later'
        refine (yields_patterns ih (by simpa [Constructor.arity] using harity.symm)
          (later''.envGood henv) (fun plain => ?_) (fun u hu => ?_)
          fun entry hentry => later''.good (hbound entry hentry)).mono fun bound' _ last all => ?_
        · cases hplain (later''.plain ▸ plain) with
          | constructor plain => exact plain
        · obtain ⟨a, ha, rfl⟩ := List.mem_map.1 hu
          exact later'.good (parts a (List.mem_cons_of_mem _ ha))
        · refine ⟨all.good, all.ascending, fun plain θ solves => ?_⟩
          rw [heq (later''.plain ▸ plain) θ (solves.trans last.solves)]
          exact .constructor ((env.constructor?_subst θ _).trans hc) (constructor_instance good apart θ)
            (all.typed (later''.plain ▸ plain) θ solves)
      · exact .fail
  | record fields span ih =>
    intro w t bound henv hplain ht hbound
    have records : ¬w.plain := fun plain => by cases hplain plain
    -- The rules have no record patterns, so there is nothing to show of them in a plain world.
    have close {m : Infer PatternBindings} (h : w.Yields m fun bound' w' =>
        (∀ entry ∈ bound', w'.Good entry.2.1) ∧ (Assoc.Ascending bound → Assoc.Ascending bound')) :
        w.Yields m (w.Bound env (.record fields span) t bound) :=
      h.mono fun _ _ _ ⟨good, ascending⟩ => ⟨good, ascending, fun plain => absurd plain records⟩
    have applied := good_apply ht
    simp only [pattern]
    refine .resolved ?_
    split
    · rename_i v hv
      rw [hv] at applied
      exact close (yields_openFields applied (asks_of_apply ht hv) records ih henv hbound)
    · split
      · rename_i declared hdeclared
        exact close (yields_declaredFields (henv.recordFields applied hdeclared) records ih henv hbound)
      · exact (yields_freshFields fields).bind fun _ _ _ _ => .fail
  | tuple elements span ih =>
    intro w t bound henv hplain ht hbound
    simp only [pattern]
    refine (yields_tupleArity t elements.length span).bind fun _ w₁ later₁ _ => ?_
    refine (yields_freshList level elements.length).bind fun types w₂ later₂ ⟨hlength, htypes⟩ => ?_
    have later := later₁.trans later₂
    refine (yields_unifyAt (later.envGood henv) span (later.good ht)
      (good_tuple fun u hu => (htypes u hu).1)).bind fun _ w₃ later₃ heq => ?_
    have later := later.trans later₃
    refine (yields_patterns ih hlength.symm (later.envGood henv) (fun plain => ?_)
      (fun u hu => later₃.good (htypes u hu).1)
      fun entry hentry => later.good (hbound entry hentry)).mono fun bound' _ last all => ?_
    · cases hplain (later.plain ▸ plain) with
      | tuple plain => exact plain
    · refine ⟨all.good, all.ascending, fun plain θ solves => ?_⟩
      rw [heq (later.plain ▸ plain) θ (solves.trans last.solves), subst_tuple]
      exact .tuple (all.typed (later.plain ▸ plain) θ solves)
  | list elements rest span ihElements ihRest =>
    intro w t bound henv hplain ht hbound
    have elementsPlain (plain : w.plain) : ∀ p ∈ elements, p.Plain := by
      cases hplain plain with
      | list plain _ => exact plain
    have restPlain (plain : w.plain) : ∀ p, rest = some p → p.Plain := by
      cases hplain plain with
      | list _ plain => exact plain
    have replicate {element : Ty} (θ : Nat → Ty) :
        (List.replicate elements.length element).map (Ty.subst θ) =
          List.replicate elements.length (element.subst θ) := by simp
    cases rest with
    | none =>
      simp only [pattern]
      refine (yields_fresh level).bind fun element w₁ later₁ ⟨good, _⟩ => ?_
      refine (yields_unifyAt (later₁.envGood henv) span (later₁.good ht)
        (good_list good)).bind fun _ w₂ later₂ heq => ?_
      have later := later₁.trans later₂
      refine (yields_patterns ihElements (by simp) (later.envGood henv)
        (fun plain => elementsPlain (later.plain ▸ plain))
        (fun u hu => (List.eq_of_mem_replicate hu).symm ▸ later₂.good good)
        fun entry hentry => later.good (hbound entry hentry)).mono fun bound' _ last all => ?_
      refine ⟨all.good, all.ascending, fun plain θ solves => ?_⟩
      rw [heq (later.plain ▸ plain) θ (solves.trans last.solves), subst_app]
      have matched := all.typed (later.plain ▸ plain) θ solves
      rw [replicate] at matched
      exact .list matched
    | some rest =>
      simp only [pattern]
      refine (yields_fresh level).bind fun element w₁ later₁ ⟨good, _⟩ => ?_
      refine (yields_unifyAt (later₁.envGood henv) span (later₁.good ht)
        (good_list good)).bind fun _ w₂ later₂ heq => ?_
      have later := later₁.trans later₂
      refine (yields_patterns ihElements (by simp) (later.envGood henv)
        (fun plain => elementsPlain (later.plain ▸ plain))
        (fun u hu => (List.eq_of_mem_replicate hu).symm ▸ later₂.good good)
        fun entry hentry => later.good (hbound entry hentry)).bind fun bound₁ w₃ later₃ all => ?_
      have later := later.trans later₃
      refine (ihRest rest rfl w₃ _ bound₁ (later.envGood henv)
        (fun plain => restPlain (later.plain ▸ plain) rest rfl)
        (good_list (later₃.good (later₂.good good))) all.good).mono fun bound' _ last tail => ?_
      refine ⟨tail.good, fun h => tail.ascending (all.ascending h), fun plain θ solves => ?_⟩
      have solves₃ := solves.trans last.solves
      have plain₂ : w₂.plain := (later₁.trans later₂).plain ▸ plain
      rw [heq plain₂ θ (solves₃.trans later₃.solves), subst_app]
      have matched := all.typed plain₂ θ solves₃
      rw [replicate] at matched
      exact .listRest matched (tail.typed (later.plain ▸ plain) θ solves)
  | either choices span ih =>
    intro w t bound henv hplain ht hbound
    have choicesPlain (plain : w.plain) : ∀ p ∈ choices, p.Plain := by
      cases hplain plain with
      | either plain => exact plain
    cases choices with
    | nil =>
      simp only [pattern]
      exact .fail
    | cons first rest =>
      simp only [pattern]
      refine (ih first List.mem_cons_self w t [] henv
        (fun plain => choicesPlain plain first List.mem_cons_self) ht (by simp)).bind
        fun names w₁ later₁ found => ?_
      refine (yields_alternatives (found.ascending .nil) (fun p hp => ih p (List.mem_cons_of_mem _ hp))
        (later₁.envGood henv)
        (fun plain p hp => choicesPlain (later₁.plain ▸ plain) p (List.mem_cons_of_mem _ hp))
        (later₁.good ht) found.good).bind fun _ w₂ later₂ others => ?_
      refine (yields_bindNames names bound).mono ?_
      rintro _ w' - ⟨rfl, hnew, rfl⟩
      refine ⟨fun entry hentry => ?_, fun h => Assoc.ascending_insertAll h, fun plain θ solves => ?_⟩
      · rcases Assoc.mem_of_mem_insertAll hentry with hentry | hentry
        · exact later₂.good (found.good entry hentry)
        · exact (later₁.trans later₂).good (hbound entry hentry)
      · unfold PatternBindings.read
        rw [Assoc.mapValues_insertAll]
        refine .either (fun p hp => ?_) fun name hname => get?_read (hnew name ?_)
        · rcases List.mem_cons.1 hp with rfl | hp
          · exact found.typed plain θ (solves.trans later₂.solves)
          · exact others (later₁.plain ▸ plain) θ solves p hp
        · simpa [Assoc.keys, Assoc.mapValues] using hname

theorem yields_checkPattern (henv : w.EnvGood env) {p : Pattern} (hplain : w.plain → p.Plain)
    {t : Ty} (ht : w.Good t) :
    w.Yields (checkPattern env level p t) fun types w' => (∀ entry ∈ types, w'.Good entry.2) ∧
      (w.plain → ∀ θ, Subst.Solves θ w'.subst →
        Matches (env.subst θ) p (t.subst θ) [] (Assoc.mapValues (Ty.subst θ) types)) := by
  refine (patternSound p w t [] henv hplain ht (by simp)).bind fun bound w' _ found => .pure ?_
  refine ⟨fun entry hentry => ?_, fun plain θ solves => ?_⟩
  · obtain ⟨given, hgiven, rfl⟩ := List.mem_map.1 hentry
    exact found.good given hgiven
  · have matched := found.typed plain θ solves
    simpa [PatternBindings.read, Assoc.mapValues, Function.comp_def] using matched

end World

end Polytype
