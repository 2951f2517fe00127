import EditLens.Proofs.Lens.Retelling
import EditLens.Proofs.Lens.Undoing
import EditLens.Proofs.Schema.Sought

/-! Lenses and their reverses on schemas. Along a lens it is worked out what taking it back looks for in the schema;
main statement: a lens that loses nothing of this can be followed back wherever it can be followed. -/
namespace EditLens

open Function (update)
open Schema

namespace LensOp

/-- What taking an operation back looks for by itself, where so much is looked for before it. -/
def own (N : List Sought) : LensOp → List Sought
  | .rename source _ => [.free source.plain]
  | .hoist host _ => [.member host.plain .here]
  | .plunge host name => [.member host.plain (.member name.plain .here)]
  | .wrap name => .member name.plain (.element .here) ::
    (N.filterMap (Sought.inMember? name.plain)).flatMap fun s => s.kept.map (.member name.plain)
  | .head name | .convert name _ _ _ | .inside name _ => [.member name.plain .here]
  | .add _ | .remove _ => []
  | .each _ => [.element .here]

/-- What was looked for before an operation without a lens of its own, in the schema behind it. What taking the
operation back puts there anew is looked for no longer. -/
def moved : LensOp → Sought → Sought
  | .rename source destination => Sought.renamed source.plain destination.plain
  | .hoist host name => Sought.hoisted host.plain name.plain
  | .plunge host name => Sought.plunged host.plain name.plain
  | .wrap name => Sought.redirect name.plain (Sought.wrapped name.plain) .never
  | .head name => Sought.redirect name.plain (Sought.headed name.plain) .never
  | .add property => Sought.redirect property.name.plain (fun _ => .never) .here
  | .remove property => Sought.redirect property.name.plain (fun _ => .here) .never
  | .convert name _ source _ =>
    Sought.redirect name.plain (fun s => if source.isNull then .member name.plain s else .here) .never
  | .inside _ _ | .each _ => id

end LensOp

mutual

def LensOp.sought (N : List Sought) : LensOp → List Sought
  | .inside name lens => .member name.plain .here ::
    N.filter (fun s => (s.inMember? name.plain).isNone) ++
      (Lens.sought (N.filterMap (Sought.inMember? name.plain)) lens).map (.member name.plain)
  | .each lens => .element .here :: N.filter (fun s => s.inElement?.isNone) ++
    (Lens.sought (N.filterMap Sought.inElement?) lens).map .element
  | op => op.own N ++ N.map op.moved

def Lens.sought (N : List Sought) : Lens → List Sought
  | [] => N
  | op :: rest => Lens.sought (op.sought N) rest

end

mutual

/-- Conditions on a lens by itself: hosts are not their own members, and what is looked for inside a member is not
lost where the member is described anew when the lens is taken back. -/
def LensOp.Keeps (N : List Sought) : LensOp → Prop
  | .hoist host name | .plunge host name => host ≠ name
  | .wrap name => ∀ s, .member name.plain s ∈ N → s.isShallow = true ∨ ∃ t, s = .option t
  | .head name => ∀ s, .member name.plain s ∈ N → s.isShallow = true ∨ ∃ t, s = .element t
  | .remove property => property.name ≠ .str "" ∧ ∃ part, ofProperty property = .ok part ∧
    ∀ s, .member property.name.plain s ∈ N → Offers s part
  | .convert name _ source destination => ∀ s, .member name.plain s ∈ N →
    (source.isNull = false → Offers s (.obj [("type", source)])) ∧
      (source.isNull = true → destination.isNull = false → Offers s (.obj [("type", destination)]))
  | .inside name lens => Lens.Keeps (N.filterMap (Sought.inMember? name.plain)) lens
  | .each lens => Lens.Keeps (N.filterMap Sought.inElement?) lens
  | .rename _ _ | .add _ => True

def Lens.Keeps (N : List Sought) : Lens → Prop
  | [] => True
  | op :: rest => op.Keeps N ∧ Lens.Keeps (op.sought N) rest

end

mutual

/-- Operations about members that a schema describes, with names that are new where they bring in new ones. Where
the first element of an array is taken, or wrapped again, what is looked for in it is in its description without
null. Nothing is asked of a lens for elements of any kind. -/
inductive LensOp.Informed : List Sought → LensOp → Json → Prop
  | rename {N : List Sought} {schema part : Json} {source destination : String}
    (described : part? schema source = some part) (new : part? schema destination = none) :
    LensOp.Informed N (.rename (.str source) (.str destination)) schema
  | hoist {N : List Sought} {schema inner part : Json} {host name : String}
    (hosted : part? schema host = some inner) (described : part? inner name = some part)
    (new : part? schema name = none) : LensOp.Informed N (.hoist (.str host) (.str name)) schema
  | plunge {N : List Sought} {schema inner part : Json} {host name : String}
    (hosted : part? schema host = some inner) (described : part? schema name = some part)
    (new : part? inner name = none) : LensOp.Informed N (.plunge (.str host) (.str name)) schema
  | wrap {N : List Sought} {schema part : Json} {name : String} (described : part? schema name = some part)
    (kept : ∀ s rest, .member name s ∈ N → withoutNull part = .ok rest → ∀ t ∈ s.kept, Offers t (arrayOf rest)) :
    LensOp.Informed N (.wrap (.str name)) schema
  | head {N : List Sought} {schema : Json} {ps : Members} {name : String}
    (described : part? schema name = some (.obj ps))
    (elements : ∀ s, .member name (.element s) ∈ N → Offers (.option s) (nullable (elements ps))) :
    LensOp.Informed N (.head (.str name)) schema
  | add {N : List Sought} {schema : Json} {property : Property} {name : String}
    (hname : property.name = .str name) (new : part? schema name = none) : LensOp.Informed N (.add property) schema
  | remove {N : List Sought} {schema part : Json} {property : Property} {name : String}
    (hname : property.name = .str name) (described : part? schema name = some part) :
    LensOp.Informed N (.remove property) schema
  | convert {N : List Sought} {schema part source destination : Json} {mapping : Mapping} {name : String}
    (described : part? schema name = some part) :
    LensOp.Informed N (.convert (.str name) mapping source destination) schema
  | inside {N : List Sought} {schema part : Json} {name : String} {lens : Lens}
    (described : part? schema name = some part)
    (below : Lens.Informed (N.filterMap (Sought.inMember? name)) lens part) :
    LensOp.Informed N (.inside (.str name) lens) schema
  | each {N : List Sought} {ms : Members} {part : Json} {lens : Lens} (described : ms.get? "items" = some part)
    (below : Lens.Informed (N.filterMap Sought.inElement?) lens part) : LensOp.Informed N (.each lens) (.obj ms)
  | eachUnknown {N : List Sought} {ms : Members} {lens : Lens} (undescribed : ms.get? "items" = none) :
    LensOp.Informed N (.each lens) (.obj ms)

inductive Lens.Informed : List Sought → Lens → Json → Prop
  | nil (N : List Sought) (schema : Json) : Lens.Informed N [] schema
  | cons {N : List Sought} {op : LensOp} {lens : Lens} {schema : Json} (first : op.Informed N schema)
    (others : ∀ next, (op.follow schema).outcome = .ok next → Lens.Informed (op.sought N) lens next) :
    Lens.Informed N (op :: lens) schema

end

/-- What is looked for before an operation is there behind it, where taking it back looks for it. -/
def LensOp.Hands (op : LensOp) : Prop :=
  ∀ {N : List Sought} {schema next : Json}, Provides N schema → op.Informed N schema → op.Keeps N →
    (op.follow schema).outcome = .ok next → Provides (op.sought N) next

def Lens.Hands (lens : Lens) : Prop :=
  ∀ {N : List Sought} {schema next : Json}, Provides N schema → Lens.Informed N lens schema → lens.Keeps N →
    (Lens.follow schema lens).outcome = .ok next → Provides (lens.sought N) next

def LensOp.Retraces (op : LensOp) : Prop :=
  ∀ {N : List Sought} {schema : Json}, op.isTextual = true → op.Keeps N → Provides (op.sought N) schema →
    ∃ back, (op.reverse.follow schema).outcome = .ok back ∧ Provides N back

def Lens.Retraces (lens : Lens) : Prop :=
  ∀ {N : List Sought} {schema : Json}, lens.isTextual = true → lens.Keeps N → Provides (lens.sought N) schema →
    ∃ back, (Lens.follow schema lens.reverse).outcome = .ok back ∧ Provides N back

namespace LensOp

variable {N : List Sought} {op : LensOp} {ms : Members} {next : Json} {parts : String → Option Json}

private theorem provides_sought (h : Retold ms next parts) (hflat : op.sought N = op.own N ++ N.map op.moved)
    (hown : ∀ s ∈ op.own N, OffersBy parts ms s) (hmoved : ∀ s ∈ N, OffersBy parts ms (op.moved s)) :
    Provides (op.sought N) next := by
  rw [hflat]
  exact h.provides (List.forall_mem_append.2 ⟨hown, List.forall_mem_map.2 hmoved⟩)

private theorem offersBy_sought (h : Provides (op.sought N) (.obj ms))
    (hflat : op.sought N = op.own N ++ N.map op.moved) :
    (∀ s ∈ op.own N, OffersBy (part? (.obj ms)) ms s) ∧
      ∀ s ∈ N, OffersBy (part? (.obj ms)) ms (op.moved s) := by
  rw [hflat] at h
  exact ⟨fun s hs => h.offersBy (List.mem_append_left _ hs),
    fun s hs => h.offersBy (List.mem_append_right _ (List.mem_map_of_mem hs))⟩

private theorem hands_rename (s d : Json) : (LensOp.rename s d).Hands := by
  intro N schema next h hinformed _ hfollow
  cases hinformed with
  | @rename _ _ _ source destination described new =>
  obtain ⟨ms, rfl⟩ := h.regular.exists_obj
  obtain ⟨_, hnext, hretold⟩ := follow_rename h.regular described new
  obtain rfl := Except.ok.inj (hfollow.symm.trans hnext)
  have hne : source ≠ destination := fun heq => by
    rw [heq, new] at described
    cases described
  refine provides_sought hretold rfl (List.forall_mem_singleton.2 ?_)
    fun s hs => offersBy_renamed described new (h.offersBy hs)
  exact (Function.update_of_ne hne ..).trans (Function.update_self ..)

private theorem hands_hoist (h n : Json) : (LensOp.hoist h n).Hands := by
  intro N schema next h hinformed _ hfollow
  cases hinformed with
  | @hoist _ _ outer part host name hosted described new =>
  obtain ⟨ms, rfl⟩ := h.regular.exists_obj
  obtain ⟨ps, rfl⟩ := (h.regular.of_part hosted).exists_obj
  obtain ⟨_, inner, hnext, hinner, hretold⟩ := follow_hoist h.regular hosted described
  obtain rfl := Except.ok.inj (hfollow.symm.trans hnext)
  have hne : host ≠ name := fun heq => by
    rw [heq, new] at hosted
    cases hosted
  have hhost : OffersBy (update (update (part? (.obj ms)) host (some inner)) name (some part)) ms
      (.member host .here) := ⟨inner, by rw [Function.update_of_ne hne, Function.update_self], trivial⟩
  exact provides_sought hretold rfl (List.forall_mem_singleton.2 hhost)
    fun s hs => offersBy_hoisted hosted described new hinner (h.offersBy hs)

private theorem hands_plunge (h n : Json) : (LensOp.plunge h n).Hands := by
  intro N schema next h hinformed hkeeps hfollow
  cases hinformed with
  | @plunge _ _ outer part host name hosted described new =>
  obtain ⟨ms, rfl⟩ := h.regular.exists_obj
  obtain ⟨ps, rfl⟩ := (h.regular.of_part hosted).exists_obj
  obtain ⟨_, inner, hnext, hinner, hretold⟩ :=
    follow_plunge h.regular hosted described fun heq => hkeeps (congrArg Json.str heq)
  obtain rfl := Except.ok.inj (hfollow.symm.trans hnext)
  have hhost : OffersBy (update (update (part? (.obj ms)) name none) host (some inner)) ms
      (.member host (.member name .here)) :=
    ⟨inner, Function.update_self .., hinner.offers ⟨part, Function.update_self .., trivial⟩⟩
  exact provides_sought hretold rfl (List.forall_mem_singleton.2 hhost)
    fun s hs => offersBy_plunged hosted described new hinner (h.offersBy hs)

private theorem hands_wrap (n : Json) : (LensOp.wrap n).Hands := by
  intro N schema next h hinformed _ hfollow
  cases hinformed with
  | wrap described kept =>
  obtain ⟨ms, rfl⟩ := h.regular.exists_obj
  obtain ⟨ps, rfl⟩ := (h.regular.of_part described).exists_obj
  obtain ⟨_, rest, hnext, hrest, -, hretold⟩ := follow_wrap h.regular described
  obtain rfl := Except.ok.inj (hfollow.symm.trans hnext)
  refine provides_sought hretold rfl (List.forall_mem_cons.2 ⟨?_, fun t ht => ?_⟩) fun s hs => ?_
  · exact ⟨arrayOf rest, Function.update_self .., _, rfl, .inl ⟨rest, rfl, trivial⟩⟩
  · obtain ⟨s, hs, ht⟩ := List.mem_flatMap.1 ht
    obtain ⟨u, hu, hinner⟩ := List.mem_filterMap.1 hs
    obtain ⟨v, hv, rfl⟩ := List.mem_map.1 ht
    rw [Sought.eq_of_inMember? hinner] at hu
    exact ⟨arrayOf rest, Function.update_self .., kept s rest hu hrest v hv⟩
  · refine Sought.offersBy_redirect_described described (fun t _ ht => ?_) (h.offersBy hs)
    cases t with
    | option t => exact ⟨arrayOf rest, Function.update_self .., _, rfl,
        .inl ⟨rest, rfl, offers_of_option (h.regular.of_part described) ht hrest⟩⟩
    | _ => trivial

private theorem hands_head (n : Json) : (LensOp.head n).Hands := by
  intro N schema next h hinformed _ hfollow
  cases hinformed with
  | @head _ _ ps name described elements =>
  obtain ⟨ms, rfl⟩ := h.regular.exists_obj
  obtain ⟨-, _, hnext, hretold⟩ | ⟨-, fault, hfault⟩ := follow_head h.regular described
  · obtain rfl := Except.ok.inj (hfollow.symm.trans hnext)
    refine provides_sought hretold rfl (List.forall_mem_singleton.2 ?_) fun s hs => ?_
    · exact ⟨_, Function.update_self .., trivial⟩
    · refine Sought.offersBy_redirect_described described (fun t hmember _ => ?_) (h.offersBy hs)
      cases t with
      | element t => exact ⟨_, Function.update_self .., elements t (hmember ▸ hs)⟩
      | _ => trivial
  · rw [hfault] at hfollow
    cases hfollow

private theorem hands_add (property : Property) : (LensOp.add property).Hands := by
  intro N schema next h hinformed _ hfollow
  cases hinformed with
  | add hname new =>
  obtain ⟨ms, rfl⟩ := h.regular.exists_obj
  obtain ⟨hne, part, hpart⟩ := exists_added hname hfollow
  have hregular := Regular.of_ofProperty hpart
  obtain ⟨_, hnext, hretold⟩ := follow_add h.regular hname hne hpart hregular
  obtain rfl := Except.ok.inj (hfollow.symm.trans hnext)
  refine provides_sought hretold rfl (by simp [own]) fun s hs => ?_
  rw [moved, hname]
  refine Sought.offersBy_redirect (fun t part _ hdescribed _ => ?_) (fun _ => trivial) (h.offersBy hs)
  rw [new] at hdescribed
  cases hdescribed

private theorem hands_remove (property : Property) : (LensOp.remove property).Hands := by
  intro N schema next h hinformed _ hfollow
  cases hinformed with
  | remove hname described =>
  obtain ⟨ms, rfl⟩ := h.regular.exists_obj
  obtain ⟨_, hnext, hretold⟩ := follow_remove h.regular hname
  obtain rfl := Except.ok.inj (hfollow.symm.trans hnext)
  refine provides_sought hretold rfl (by simp [own]) fun s hs => ?_
  rw [moved, hname]
  exact Sought.offersBy_redirect_described described (fun _ _ _ => trivial) (h.offersBy hs)

private theorem hands_convert (n : Json) (mapping : Mapping) (source destination : Json) :
    (LensOp.convert n mapping source destination).Hands := by
  intro N schema next h hinformed hkeeps hfollow
  cases hinformed with
  | @convert _ _ part _ _ _ name described =>
  obtain ⟨ms, rfl⟩ := h.regular.exists_obj
  obtain ⟨ps, rfl⟩ := (h.regular.of_part described).exists_obj
  have hconverted : ∃ part, Retold ms next (update (part? (.obj ms)) name (some part)) ∧
      ∀ s, .member name s ∈ N → source.isNull = true → Offers s (.obj ps) → Offers s part := by
    cases htype : destination.isNull with
    | true =>
      obtain ⟨_, qs, hnext, hqs, hretold⟩ := follow_convert_untyped h.regular described htype
      obtain rfl := Except.ok.inj (hfollow.symm.trans hnext)
      exact ⟨.obj qs, hretold, fun _ _ _ hs => hqs.offers hs⟩
    | false =>
      obtain ⟨_, hnext, hretold⟩ := follow_convert_typed h.regular described htype
      obtain rfl := Except.ok.inj (hfollow.symm.trans hnext)
      exact ⟨_, hretold, fun s hs hsource _ => (hkeeps s hs).2 hsource htype⟩
  obtain ⟨part, hretold, hpart⟩ := hconverted
  refine provides_sought hretold rfl (List.forall_mem_singleton.2 ?_) fun s hs => ?_
  · exact ⟨part, Function.update_self .., trivial⟩
  · refine Sought.offersBy_redirect_described described (fun t hmember ht => ?_) (h.offersBy hs)
    split
    · rename_i hsource
      exact ⟨part, Function.update_self .., hpart t (hmember ▸ hs) hsource ht⟩
    · trivial

private theorem hands_inside (n : Json) {lens : Lens} (ih : lens.Hands) : (LensOp.inside n lens).Hands := by
  intro N schema next h hinformed hkeeps hfollow
  cases hinformed with
  | @inside _ _ part name _ described below =>
  obtain ⟨ms, rfl⟩ := h.regular.exists_obj
  obtain ⟨inner, hlens⟩ := exists_followed_inside h.regular described hfollow
  have hinner := ih (h.inMember described) below hkeeps hlens
  obtain ⟨_, hnext, hretold⟩ := follow_inside h.regular described hlens hinner.regular
  obtain rfl := Except.ok.inj (hfollow.symm.trans hnext)
  refine hretold.provides (List.forall_mem_append.2 ⟨List.forall_mem_cons.2 ⟨?_, fun s hs => ?_⟩,
    List.forall_mem_map.2 fun s hs => ?_⟩)
  · exact ⟨inner, Function.update_self .., trivial⟩
  · obtain ⟨hmem, hoff⟩ := List.mem_filter.1 hs
    exact offersBy_update described (Option.isNone_iff_eq_none.1 hoff) (h.offersBy hmem)
  · exact ⟨inner, Function.update_self .., hinner.offers s hs⟩

private theorem hands_each {lens : Lens} (ih : lens.Hands) : (LensOp.each lens).Hands := by
  intro N schema next h hinformed hkeeps hfollow
  cases hinformed with
  | @each _ ms part _ described below =>
    obtain ⟨inner, hlens⟩ := exists_followed_each described hfollow
    have hinner := ih (h.inElement described) below hkeeps hlens
    obtain rfl := Except.ok.inj (hfollow.symm.trans (follow_each described hlens))
    have hitems : ∀ s, Offers s inner → Offers (.element s) (.obj (ms.put "items" inner)) :=
      fun s hs => ⟨_, rfl, .inl ⟨inner, Members.get?_put_self, hs⟩⟩
    refine ⟨h.regular.put_items hinner.regular, List.forall_mem_append.2 ⟨List.forall_mem_cons.2 ⟨?_, fun s hs => ?_⟩,
      List.forall_mem_map.2 fun s hs => ?_⟩⟩
    · exact hitems _ trivial
    · obtain ⟨hmem, hoff⟩ := List.mem_filter.1 hs
      exact (offers_put_items described (Option.isNone_iff_eq_none.1 hoff)).2 (h.offers _ hmem)
    · exact hitems _ (hinner.offers s hs)
  | @eachUnknown _ ms _ undescribed =>
    have harray := isArray_of_follow_each undescribed hfollow
    obtain rfl := Except.ok.inj (hfollow.symm.trans (follow_each_unknown undescribed harray))
    have hunknown : ∀ s, Offers (.element s) (.obj ms) := fun s => ⟨ms, rfl, .inr ⟨undescribed, harray⟩⟩
    exact ⟨h.regular, List.forall_mem_append.2 ⟨List.forall_mem_cons.2 ⟨hunknown _, fun s hs =>
      h.offers s (List.mem_filter.1 hs).1⟩, List.forall_mem_map.2 fun s _ => hunknown s⟩⟩

end LensOp

mutual

theorem LensOp.hands : ∀ op : LensOp, op.Hands
  | .rename s d => LensOp.hands_rename s d
  | .hoist h n => LensOp.hands_hoist h n
  | .plunge h n => LensOp.hands_plunge h n
  | .wrap n => LensOp.hands_wrap n
  | .head n => LensOp.hands_head n
  | .add property => LensOp.hands_add property
  | .remove property => LensOp.hands_remove property
  | .inside n lens => LensOp.hands_inside n (Lens.hands lens)
  | .each lens => LensOp.hands_each (Lens.hands lens)
  | .convert n mapping s d => LensOp.hands_convert n mapping s d

/-- What taking a lens back looks for is there once the lens has been followed. -/
theorem Lens.hands : ∀ lens : Lens, lens.Hands
  | [] => fun h _ _ hfollow => Except.ok.inj hfollow ▸ h
  | op :: rest => by
    intro h hinformed hkeeps hfollow
    cases hinformed with
    | cons first others =>
    rw [Lens.follow, Noted.outcome_bind] at hfollow
    obtain ⟨mid, hmid, hfollow⟩ := Except.exists_of_bind hfollow
    exact Lens.hands rest (LensOp.hands op h first hkeeps.1 hmid) (others mid hmid) hkeeps.2 hfollow

end

namespace LensOp

private theorem retraces_rename (s d : Json) : (LensOp.rename s d).Retraces := by
  intro N schema htext _ h
  obtain ⟨⟨source, rfl⟩, destination, rfl⟩ := by simpa [isTextual, Json.isString_iff] using htext
  obtain ⟨ms, rfl⟩ := h.regular.exists_obj
  obtain ⟨hfree, hmoved⟩ := offersBy_sought h rfl
  have hsource : part? (.obj ms) source = none := hfree _ List.mem_cons_self
  cases hdestination : part? (.obj ms) destination with
  | none =>
    exact ⟨_, follow_rename_undescribed h.regular hdestination, h.regular, fun s hs =>
      offersBy_part?.1 (offersBy_of_renamed_undescribed hsource hdestination (hmoved s hs))⟩
  | some part =>
    obtain ⟨back, hback, hretold⟩ := follow_rename h.regular hdestination hsource
    exact ⟨back, hback, hretold.provides fun s hs => offersBy_of_renamed hsource hdestination (hmoved s hs)⟩

private theorem retraces_hoist (h n : Json) : (LensOp.hoist h n).Retraces := by
  intro N schema htext hkeeps h
  obtain ⟨⟨host, rfl⟩, name, rfl⟩ := by simpa [isTextual, Json.isString_iff] using htext
  obtain ⟨ms, rfl⟩ := h.regular.exists_obj
  obtain ⟨hown, hmoved⟩ := offersBy_sought h rfl
  obtain ⟨outer, hhost, -⟩ := List.forall_mem_singleton.1 hown
  obtain ⟨ps, rfl⟩ := (h.regular.of_part hhost).exists_obj
  have hne : host ≠ name := fun heq => hkeeps (congrArg Json.str heq)
  cases hname : part? (.obj ms) name with
  | none =>
    exact ⟨_, follow_plunge_undescribed h.regular hhost hname, h.regular, fun s hs =>
      offersBy_part?.1 (offersBy_of_hoisted_undescribed hname (hmoved s hs))⟩
  | some part =>
    obtain ⟨back, inner, hback, hinner, hretold⟩ := follow_plunge h.regular hhost hname hne
    exact ⟨back, hback, hretold.provides fun s hs => offersBy_of_hoisted hhost hname hne hinner (hmoved s hs)⟩

private theorem retraces_plunge (h n : Json) : (LensOp.plunge h n).Retraces := by
  intro N schema htext hkeeps h
  obtain ⟨⟨host, rfl⟩, name, rfl⟩ := by simpa [isTextual, Json.isString_iff] using htext
  obtain ⟨ms, rfl⟩ := h.regular.exists_obj
  obtain ⟨hown, hmoved⟩ := offersBy_sought h rfl
  obtain ⟨outer, hhost, part, hpart, -⟩ := List.forall_mem_singleton.1 hown
  obtain ⟨ps, rfl⟩ := (h.regular.of_part hhost).exists_obj
  obtain ⟨back, inner, hback, hinner, hretold⟩ := follow_hoist h.regular hhost hpart
  exact ⟨back, hback, hretold.provides fun s hs => offersBy_of_plunged hhost hpart hinner (hmoved s hs)⟩

private theorem retraces_wrap (n : Json) : (LensOp.wrap n).Retraces := by
  intro N schema htext hkeeps h
  obtain ⟨name, rfl⟩ := Json.isString_iff.1 htext
  obtain ⟨ms, rfl⟩ := h.regular.exists_obj
  obtain ⟨hown, hmoved⟩ := offersBy_sought h rfl
  obtain ⟨⟨part, hpart, harray⟩, hkept⟩ := List.forall_mem_cons.1 hown
  obtain ⟨ps, rfl⟩ := (h.regular.of_part hpart).exists_obj
  obtain ⟨-, back, hback, hretold⟩ | ⟨hnone, -⟩ := follow_head h.regular hpart
  · refine ⟨back, hback, hretold.provides fun s hs =>
      Sought.offersBy_of_redirect_described (fun t hmember ht => ?_) (hmoved s hs)⟩
    obtain hshallow | ⟨u, rfl⟩ := hkeeps t (hmember ▸ hs)
    · exact offers_of_isShallow (h.regular.of_part hpart).elements.nullable (fun _ => rfl) hshallow
    · refine offers_option_nullable (h.regular.of_part hpart) (fun v hv => ?_) (offers_of_member ht hpart)
      have hu : Sought.option u ∈ N.filterMap (Sought.inMember? name) :=
        List.mem_filterMap.2 ⟨.member name (.option u), hmember ▸ hs, if_pos rfl⟩
      exact offers_of_member (hkept (.member name v) (List.mem_flatMap.2 ⟨_, hu, List.mem_map_of_mem hv⟩)) hpart
  · rw [isArray_of_offers harray] at hnone
    cases hnone

private theorem retraces_head (n : Json) : (LensOp.head n).Retraces := by
  intro N schema htext hkeeps h
  obtain ⟨name, rfl⟩ := Json.isString_iff.1 htext
  obtain ⟨ms, rfl⟩ := h.regular.exists_obj
  obtain ⟨hown, hmoved⟩ := offersBy_sought h rfl
  obtain ⟨part, hpart, -⟩ := List.forall_mem_singleton.1 hown
  obtain ⟨ps, rfl⟩ := (h.regular.of_part hpart).exists_obj
  obtain ⟨back, rest, hback, hrest, hregular, hretold⟩ := follow_wrap h.regular hpart
  refine ⟨back, hback, hretold.provides fun s hs =>
    Sought.offersBy_of_redirect_described (fun t hmember ht => ?_) (hmoved s hs)⟩
  obtain hshallow | ⟨t, rfl⟩ := hkeeps t (hmember ▸ hs)
  · exact offers_of_isShallow hregular.arrayOf (fun _ => rfl) hshallow
  · exact ⟨_, rfl, .inl ⟨rest, rfl, offers_of_option (h.regular.of_part hpart) (offers_of_member ht hpart) hrest⟩⟩

private theorem retraces_add (property : Property) : (LensOp.add property).Retraces := by
  intro N schema htext _ h
  obtain ⟨name, hname⟩ := Json.isString_iff.1 htext
  obtain ⟨ms, rfl⟩ := h.regular.exists_obj
  obtain ⟨-, hmoved⟩ := offersBy_sought h rfl
  rw [moved, hname] at hmoved
  obtain ⟨back, hback, hretold⟩ := follow_remove h.regular hname
  exact ⟨back, hback, hretold.provides fun s hs =>
    Sought.offersBy_of_redirect (fun _ _ => False.elim) (fun _ => rfl) (hmoved s hs)⟩

private theorem retraces_remove (property : Property) : (LensOp.remove property).Retraces := by
  intro N schema htext hkeeps h
  obtain ⟨name, hname⟩ := Json.isString_iff.1 htext
  obtain ⟨ms, rfl⟩ := h.regular.exists_obj
  obtain ⟨-, hmoved⟩ := offersBy_sought h rfl
  rw [moved, hname] at hmoved
  obtain ⟨hne, part, hpart, hoffers⟩ := hkeeps
  rw [hname] at hne hoffers
  obtain ⟨back, hback, hretold⟩ :=
    follow_add h.regular hname (fun heq => hne (congrArg Json.str heq)) hpart (.of_ofProperty hpart)
  exact ⟨back, hback, hretold.provides fun s hs =>
    Sought.offersBy_of_redirect_described (fun t hmember _ => hoffers t (hmember ▸ hs)) (hmoved s hs)⟩

private theorem retraces_convert (n : Json) (mapping : Mapping) (source destination : Json) :
    (LensOp.convert n mapping source destination).Retraces := by
  intro N schema htext hkeeps h
  obtain ⟨name, rfl⟩ := Json.isString_iff.1 htext
  obtain ⟨ms, rfl⟩ := h.regular.exists_obj
  obtain ⟨hown, hmoved⟩ := offersBy_sought h rfl
  obtain ⟨part, hpart, -⟩ := List.forall_mem_singleton.1 hown
  obtain ⟨ps, rfl⟩ := (h.regular.of_part hpart).exists_obj
  cases htype : source.isNull with
  | true =>
    obtain ⟨back, qs, hback, hqs, hretold⟩ := follow_convert_untyped h.regular hpart htype
    refine ⟨back, hback, hretold.provides fun s hs =>
      Sought.offersBy_of_redirect_described (fun t _ ht => ?_) (hmoved s hs)⟩
    rw [if_pos htype] at ht
    exact hqs.offers (offers_of_member ht hpart)
  | false =>
    obtain ⟨back, hback, hretold⟩ := follow_convert_typed h.regular hpart htype
    exact ⟨back, hback, hretold.provides fun s hs =>
      Sought.offersBy_of_redirect_described (fun t hmember _ => (hkeeps t (hmember ▸ hs)).1 htype) (hmoved s hs)⟩

private theorem retraces_inside (n : Json) {lens : Lens} (ih : lens.Retraces) :
    (LensOp.inside n lens).Retraces := by
  intro N schema htext hkeeps h
  obtain ⟨⟨name, rfl⟩, htext⟩ := by simpa [isTextual, Json.isString_iff] using htext
  obtain ⟨ms, rfl⟩ := h.regular.exists_obj
  obtain ⟨hothers, hbelow⟩ := List.forall_mem_append.1 fun _ hs => h.offersBy hs
  obtain ⟨⟨part, hpart, -⟩, hothers⟩ := List.forall_mem_cons.1 hothers
  rw [List.forall_mem_map] at hbelow
  obtain ⟨inner, hlens, hinner⟩ := ih htext hkeeps
    ⟨h.regular.of_part hpart, fun s hs => offers_of_member (hbelow s hs) hpart⟩
  obtain ⟨back, hback, hretold⟩ := follow_inside h.regular hpart hlens hinner.regular
  refine ⟨back, hback, hretold.provides fun s hs => ?_⟩
  cases hs' : s.inMember? name with
  | none => exact offersBy_update hpart hs' (hothers s (List.mem_filter.2 ⟨hs, by simp [hs']⟩))
  | some t =>
    obtain rfl := Sought.eq_of_inMember? hs'
    exact ⟨inner, Function.update_self .., hinner.offers t (List.mem_filterMap.2 ⟨_, hs, hs'⟩)⟩

private theorem retraces_each {lens : Lens} (ih : lens.Retraces) : (LensOp.each lens).Retraces := by
  intro N schema htext hkeeps h
  obtain ⟨ms, rfl⟩ := h.regular.exists_obj
  obtain ⟨hothers, hbelow⟩ := List.forall_mem_append.1 fun s hs => h.offers s hs
  obtain ⟨hown, hothers⟩ := List.forall_mem_cons.1 hothers
  rw [List.forall_mem_map] at hbelow
  cases hitems : ms.get? "items" with
  | none =>
    have harray : (ms.valueOf "type").isText "array" = true := by
      simpa [isArray, Members.has, hitems] using isArray_of_offers hown
    refine ⟨.obj ms, follow_each_unknown hitems harray, h.regular, fun s hs => ?_⟩
    cases hs' : s.inElement? with
    | none => exact hothers s (List.mem_filter.2 ⟨hs, by simp [hs']⟩)
    | some t =>
      obtain rfl := Sought.eq_of_inElement? hs'
      exact ⟨ms, rfl, .inr ⟨hitems, harray⟩⟩
  | some part =>
    obtain ⟨inner, hlens, hinner⟩ := ih htext hkeeps
      ⟨h.regular.of_items hitems, fun s hs => offers_of_element (hbelow s hs) hitems⟩
    refine ⟨_, follow_each hitems hlens, h.regular.put_items hinner.regular, fun s hs => ?_⟩
    cases hs' : s.inElement? with
    | none => exact (offers_put_items hitems hs').2 (hothers s (List.mem_filter.2 ⟨hs, by simp [hs']⟩))
    | some t =>
      obtain rfl := Sought.eq_of_inElement? hs'
      exact ⟨_, rfl, .inl ⟨inner, Members.get?_put_self,
        hinner.offers t (List.mem_filterMap.2 ⟨_, hs, hs'⟩)⟩⟩

end LensOp

mutual

theorem LensOp.retraces : ∀ op : LensOp, op.Retraces
  | .rename s d => LensOp.retraces_rename s d
  | .hoist h n => LensOp.retraces_hoist h n
  | .plunge h n => LensOp.retraces_plunge h n
  | .wrap n => LensOp.retraces_wrap n
  | .head n => LensOp.retraces_head n
  | .add property => LensOp.retraces_add property
  | .remove property => LensOp.retraces_remove property
  | .inside n lens => LensOp.retraces_inside n (Lens.retraces lens)
  | .each lens => LensOp.retraces_each (Lens.retraces lens)
  | .convert n mapping s d => LensOp.retraces_convert n mapping s d

/-- A lens can be taken back where all is there that this looks for. -/
theorem Lens.retraces : ∀ lens : Lens, lens.Retraces
  | [] => fun _ _ h => ⟨_, rfl, h⟩
  | op :: rest => by
    intro htext hkeeps h
    rw [Lens.isTextual, Bool.and_eq_true] at htext
    obtain ⟨mid, hmid, hprovides⟩ := Lens.retraces rest htext.2 hkeeps.2 h
    obtain ⟨back, hback, hprovides⟩ := LensOp.retraces op htext.1 hkeeps.1 hprovides
    exact ⟨back, by simp [Lens.reverse, Lens.outcome_follow_append, hmid, Lens.follow, hback], hprovides⟩

end

/-- A lens that can be followed on a regular schema can be followed back, if it loses nothing that taking it back
looks for. -/
theorem Lens.exists_follow_reverse {lens : Lens} {schema next : Json} (hschema : Regular schema)
    (htext : lens.isTextual = true) (hkeeps : lens.Keeps []) (hinformed : Lens.Informed [] lens schema)
    (hfollow : (Lens.follow schema lens).outcome = .ok next) :
    ∃ back, (Lens.follow next lens.reverse).outcome = .ok back := by
  have hprovides := Lens.hands lens ⟨hschema, by simp⟩ hinformed hkeeps hfollow
  obtain ⟨back, hback, -⟩ := Lens.retraces lens htext hkeeps hprovides
  exact ⟨back, hback⟩

/-- Something in the elements of an array takes another name, the first element is taken, and it is wrapped. -/
theorem Lens.exists_follow_reverse_items :
    let task : Json := .obj [("properties", .obj [("title", .obj [("type", .str "string")])])]
    let schema : Json := .obj [("properties", .obj [("tasks", .obj [("items", task)])])]
    let lens : Lens := [.inside (.str "tasks") [.each [.rename (.str "title") (.str "name")]], .head (.str "tasks"),
      .wrap (.str "tasks")]
    ∃ next back, (Lens.follow schema lens).outcome = .ok next ∧
      (Lens.follow next lens.reverse).outcome = .ok back := by
  intro task schema lens
  have hmembers {name : String} {part : Json} (hpart : Regular part) :
      Regular (.obj [("properties", .obj [(.str name, part)])]) :=
    .cons .empty rfl (.properties rfl (by simp [Members.Distinct]) (by simp) (by simpa using hpart))
  have hschema : Regular schema := hmembers (.cons .empty rfl (.items rfl (hmembers (.typed _))))
  have helements : ∀ s, .member "tasks" s ∈ Lens.sought [] (List.take 1 lens) →
      s = .here ∨ s = .element .here ∨ s = .element (.free "title") := fun s hs => by
    change Sought.member "tasks" s ∈ [.member "tasks" .here, .member "tasks" (.element .here),
      .member "tasks" (.element (.free "title"))] at hs
    simpa using hs
  have hoptions : ∀ s, .member "tasks" s ∈ Lens.sought [] (List.take 2 lens) →
      s = .here ∨ s = .option .here ∨ s = .option (.free "title") := fun s hs => by
    change Sought.member "tasks" s ∈ [.member "tasks" .here, .here, .member "tasks" (.option .here),
      .member "tasks" (.option (.free "title"))] at hs
    simpa using hs
  have hkeeps : lens.Keeps [] := by
    refine ⟨⟨⟨trivial, trivial⟩, trivial⟩, fun s hs => ?_, fun s hs => ?_, trivial⟩
    · rcases helements s hs with rfl | rfl | rfl <;> simp [Sought.isShallow]
    · rcases hoptions s hs with rfl | rfl | rfl <;> simp [Sought.isShallow]
  let renamed : Json :=
    .obj [("properties", .obj [("name", .obj [("type", .str "string")])]), ("required", .arr [])]
  have hrenamed : Regular renamed := .cons (.cons .empty rfl (.list (.inl rfl))) rfl
    (.properties rfl (by simp [Members.Distinct]) (by simp) (by simpa using .typed _))
  have hkept : ∀ (ps : Members) (t : Sought), ps.get? "items" = some renamed →
      t ∈ [.items, .element .plain, .element .members] → Offers t (.obj ps) := by
    intro ps t hitems ht
    have helement : ∀ u, Offers u renamed → Offers (.element u) (.obj ps) :=
      fun u hu => ⟨ps, rfl, .inl ⟨renamed, hitems, hu⟩⟩
    simp only [List.mem_cons, List.not_mem_nil, or_false] at ht
    rcases ht with rfl | rfl | rfl
    · exact ⟨ps, rfl, Members.has_iff.2 ⟨_, hitems⟩⟩
    · exact helement _ ⟨_, rfl, rfl, rfl⟩
    · exact helement _ ⟨_, rfl, rfl⟩
  have hinformed : Lens.Informed [] lens schema := by
    refine .cons (.inside rfl (.cons (.each rfl (.cons (.rename rfl rfl) fun next _ => .nil _ next))
      fun next _ => .nil _ next)) fun next hnext => ?_
    obtain rfl := Except.ok.inj hnext
    refine .cons (.head rfl fun s hs => ?_) fun next hnext => ?_
    · have hitems : Regular (.obj [("items", renamed)]) := .cons .empty rfl (.items rfl hrenamed)
      rcases helements _ hs with h | h | h <;> cases h
      · exact offers_option_nullable hitems (by simp [Sought.kept]) ⟨_, rfl, .inl ⟨renamed, rfl, trivial⟩⟩
      · exact offers_option_nullable hitems (fun t ht => hkept _ t rfl ht) ⟨_, rfl, .inl ⟨renamed, rfl, rfl⟩⟩
    obtain rfl := Except.ok.inj hnext
    refine .cons (.wrap rfl fun s rest hs hrest t ht => ?_) fun next _ => .nil _ next
    obtain rfl := Except.ok.inj hrest
    rcases hoptions s hs with rfl | rfl | rfl
    · cases ht
    · cases ht
    · exact hkept _ t rfl ht
  obtain ⟨back, hback⟩ := Lens.exists_follow_reverse hschema rfl hkeeps hinformed rfl
  exact ⟨_, back, rfl, hback⟩

/-- A member without a name can be removed but not added. A member that is put back as an object of any kind does
not have the member any more that an earlier operation wrapped in it. Elements come out of their array with a union
that is no list, but not back into one. -/
theorem Lens.not_follow_reverse :
    let text : Json := .obj [("type", .str "string")]
    let nameless : Json := .obj [("properties", .obj [("", text)])]
    let unnaming : Lens := [.remove ⟨.str "", .str "string", .null, .null, .null⟩]
    let nested : Json := .obj [("properties", .obj [("x", .obj [("properties", .obj [("a", text)])])])]
    let emptying : Lens :=
      [.inside (.str "x") [.wrap (.str "a")], .remove ⟨.str "x", .str "object", .null, .null, .null⟩]
    let mistaken : Json := .obj [("properties", .obj [("x", .obj [("items", .obj [("oneOf", .bool true)])])])]
    let taking : Lens := [.head (.str "x")]
    (Regular nameless ∧ unnaming.isTextual = true ∧ Lens.Informed [] unnaming nameless ∧
      ∃ next, (Lens.follow nameless unnaming).outcome = .ok next ∧
        (Lens.follow next unnaming.reverse).outcome = .error .noName) ∧
    (Regular nested ∧ emptying.isTextual = true ∧ Lens.Informed [] emptying nested ∧
      ∃ next, (Lens.follow nested emptying).outcome = .ok next ∧
        (Lens.follow next emptying.reverse).outcome = .error (.undescribed .head (.str "a"))) ∧
    taking.isTextual = true ∧ Lens.Keeps [] taking ∧ Lens.Informed [] taking mistaken ∧
      ∃ next, (Lens.follow mistaken taking).outcome = .ok next ∧
        (Lens.follow next taking.reverse).outcome = .error .wrongKind := by
  intro text nameless unnaming nested emptying mistaken taking
  have hmembers {name : String} {part : Json} (hpart : Regular part) :
      Regular (.obj [("properties", .obj [(.str name, part)])]) :=
    .cons .empty rfl (.properties rfl (by simp [Members.Distinct]) (by simp) (by simpa using hpart))
  refine ⟨⟨hmembers (.typed _), rfl, .cons (.remove rfl rfl) fun next _ => .nil _ next, _, rfl, rfl⟩,
    ⟨hmembers (hmembers (.typed _)), rfl, ?_, _, rfl, rfl⟩, rfl, ⟨fun _ hs => (by cases hs), trivial⟩,
    .cons (.head rfl fun _ hs => by cases hs) fun next _ => .nil _ next, _, rfl, rfl⟩
  refine .cons (.inside rfl (.cons (.wrap rfl fun _ _ hs => by cases hs) fun next _ => .nil _ next))
    fun next hnext => ?_
  obtain rfl := Except.ok.inj hnext
  exact .cons (.remove rfl rfl) fun next _ => .nil _ next

end EditLens
