import EditLens.Proofs.Json.Selecting
import EditLens.Proofs.Lens.Scoping

/-! What a lens says anew about members of chosen names. Main statements: it hangs on what was said about members of
these names if the lens is about no others, and nothing is said anew about them if the lens is about others alone. -/
namespace EditLens

namespace Schema

variable {sel : Selection} {names : List Json} {key : Scalar} {said : Roster}

private theorem listed_only (h : sel.chosen (.scalar key) = true) :
    listed (names.filter sel.chosen) (.scalar key) = listed names (.scalar key) := by
  rw [listed, List.any_filter, listed]
  congr 1
  funext name
  cases hname : name.same (.scalar key) with
  | false => rw [Bool.and_false]
  | true => rw [sel.congr hname, h, Bool.and_true]

private theorem only_unlisted :
    (unlisted names (.scalar key)).filter sel.chosen = unlisted (names.filter sel.chosen) (.scalar key) := by
  simp only [unlisted, List.filter_filter, Bool.and_comm]

private theorem only_unlisted_of_not (h : sel.chosen (.scalar key) = false) :
    (unlisted names (.scalar key)).filter sel.chosen = names.filter sel.chosen := by
  rw [unlisted, List.filter_filter]
  refine List.filter_congr fun name _ => ?_
  cases hname : name.same (.scalar key) with
  | false => simp
  | true => rw [sel.congr hname, h]; rfl

private theorem only_enlisted (h : sel.chosen (.scalar key) = true) :
    (enlisted names (.scalar key)).filter sel.chosen = enlisted (names.filter sel.chosen) (.scalar key) := by
  rw [enlisted, enlisted, listed_only h]
  split
  · rfl
  · rw [List.filter_append, List.filter_cons_of_pos h, List.filter_nil]

private theorem only_enlisted_of_not (h : sel.chosen (.scalar key) = false) :
    (enlisted names (.scalar key)).filter sel.chosen = names.filter sel.chosen := by
  rw [enlisted]
  split
  · rfl
  · rw [List.filter_append, List.filter_cons_of_neg (by simp [h]), List.filter_nil, List.append_nil]

private theorem only_replaced {source destination : Scalar} (hsource : sel.chosen (.scalar source) = true)
    (hdestination : sel.chosen (.scalar destination) = true) :
    (replaced names (.scalar source) (.scalar destination)).filter sel.chosen =
      replaced (names.filter sel.chosen) (.scalar source) (.scalar destination) := by
  rw [replaced, List.filter_map, replaced]
  congr 1
  refine List.filter_congr fun name _ => ?_
  simp only [Function.comp_apply]
  split
  · rename_i hname
    rw [hdestination, sel.congr hname, hsource]
  · rfl

private theorem only_replaced_of_not {source destination : Scalar} (hsource : sel.chosen (.scalar source) = false)
    (hdestination : sel.chosen (.scalar destination) = false) :
    (replaced names (.scalar source) (.scalar destination)).filter sel.chosen = names.filter sel.chosen := by
  induction names with
  | nil => rfl
  | cons name rest ih =>
    rw [replaced, List.map_cons, ← replaced]
    split
    · rename_i hname
      rw [List.filter_cons_of_neg (by simp [hdestination]),
        List.filter_cons_of_neg (by simp [sel.congr hname, hsource]), ih]
    · rw [List.filter_cons, List.filter_cons, ih]

private theorem only_renameKey {source destination : Scalar} (hsource : sel.chosen (.scalar source) = true)
    (hdestination : sel.chosen (.scalar destination) = true) (props : Members) :
    (renameKey props source destination).only sel = renameKey (props.only sel) source destination :=
  Members.only_ofEntries.trans (congrArg Members.ofEntries (Members.only_renamed hsource hdestination))

private theorem only_renameKey_of_not {source destination : Scalar} (hsource : sel.chosen (.scalar source) = false)
    (hdestination : sel.chosen (.scalar destination) = false) {props : Members} (hdistinct : props.Distinct) :
    (renameKey props source destination).only sel = props.only sel := by
  refine Members.only_ofEntries.trans ?_
  show Members.ofEntries ((props.renamed source destination).only sel) = _
  rw [Members.only_renamed_of_not hsource hdestination, Members.ofEntries_eq (hdistinct.only sel)]

namespace Roster

def only (sel : Selection) (said : Roster) : Roster where
  properties := Members.only sel <$> said.properties
  required := List.filter sel.chosen <$> said.required

def Distinct (said : Roster) : Prop := ∀ props, said.properties = .ok props → props.Distinct

end Roster

def Revision.only (sel : Selection) : Revision → Revision
  | none => none
  | described props => described (props.only sel)
  | told props names => told (props.only sel) (names.filter sel.chosen)

theorem Roster.only_after (r : Revision) : (said.after r).only sel = (said.only sel).after (r.only sel) := by
  cases r <;> rfl

private theorem Revision.only_followedBy (first second : Revision) :
    (first.followedBy second).only sel = (first.only sel).followedBy (second.only sel) := by
  cases second <;> cases first <;> rfl

theorem Roster.after_followedBy (first second : Revision) :
    said.after (first.followedBy second) = (said.after first).after second := by
  cases second <;> cases first <;> rfl

def Covers (sel : Selection) (names : List Json) : Prop :=
  ∀ key, .scalar key ∈ names → sel.chosen (.scalar key) = true

def Avoids (sel : Selection) (names : List Json) : Prop :=
  ∀ key, .scalar key ∈ names → sel.chosen (.scalar key) = false

end Schema

open Schema

variable {sel : Selection} {said : Roster} {props : Members} {name : Json}

/-- What is done with the key that a name is. -/
private theorem Json.asKey_bind_congr {α : Type} {f g : Scalar → Except Fault α}
    (h : ∀ key, name = .scalar key → f key = g key) : name.asKey >>= f = name.asKey >>= g := by
  cases name with
  | scalar key => exact h key rfl
  | _ => rfl

private theorem Json.exists_key_of_bind {α : Type} {f : Scalar → Except Fault α} {a : α}
    (h : name.asKey >>= f = .ok a) :
    ∃ key, name = .scalar key ∧ f key = .ok a := by
  cases name with
  | scalar key => exact ⟨key, rfl, h⟩
  | _ => cases h

private theorem redescribe_only (h : Covers sel [name]) (step : SchemaStep) (f : Json → Except Fault Json) :
    redescribe (props.only sel) name step f = Revision.only sel <$> redescribe props name step f := by
  simp only [redescribe, map_bind]
  refine Json.asKey_bind_congr fun key hkey => ?_
  have hchosen := h key (by simp [hkey])
  rw [Members.get?_only hchosen]
  cases props.get? key with
  | none => rfl
  | some part => simp only [map_bind, map_pure, Revision.only, Members.only_put, hchosen, if_true]

/-- What an operation says anew about chosen members hangs on what was said about them. -/
theorem LensOp.revise_only {op : LensOp} (h : Covers sel op.names) (said : Roster) :
    op.revise (said.only sel) = Revision.only sel <$> op.revise said := by
  cases op with
  | rename source destination =>
    simp only [revise, Roster.only, map_bind, bind_map_left]
    refine bind_congr fun props => Json.asKey_bind_congr fun key hkey => ?_
    subst hkey
    have hsource := h key (by simp [names])
    rw [Members.has_only hsource]
    cases props.has key with
    | false => rfl
    | true =>
    simp only [Bool.not_true, Bool.false_eq_true, if_false, map_bind, map_pure]
    refine Json.asKey_bind_congr fun key' hkey' => bind_congr fun required => ?_
    subst hkey'
    have hdestination := h key' (by simp [names])
    rw [Revision.only, only_replaced hsource hdestination, only_renameKey hsource hdestination]
  | hoist host name =>
    simp only [revise, Roster.only, map_bind, bind_map_left]
    refine bind_congr fun props => Json.asKey_bind_congr fun hostKey hhost => ?_
    subst hhost
    have hhost := h hostKey (by simp [names])
    rw [Members.get?_only hhost]
    cases props.get? hostKey with
    | none => rfl
    | some outer =>
    simp only [map_bind, map_pure]
    refine bind_congr fun taken => Json.asKey_bind_congr fun key hkey => bind_congr fun required => ?_
    subst hkey
    have hkey := h key (by simp [names])
    simp only [Revision.only, Members.only_put, hhost, hkey, if_true]
    split
    · rw [only_enlisted hkey]
    · rfl
  | plunge host name =>
    simp only [revise, Roster.only, map_bind, bind_map_left]
    refine bind_congr fun props => Json.asKey_bind_congr fun hostKey hhost => ?_
    subst hhost
    have hhost := h hostKey (by simp [names])
    rw [Members.has_only hhost]
    cases props.has hostKey with
    | false => rfl
    | true =>
    simp only [Bool.not_true, Bool.false_eq_true, if_false, map_bind]
    refine Json.asKey_bind_congr fun key hkey => ?_
    subst hkey
    have hkey := h key (by simp [names])
    rw [Members.get?_only hkey]
    cases props.get? key with
    | none => rfl
    | some part =>
    simp only [map_bind, map_pure, ← Members.only_without, Members.demand, Members.get?_only hhost,
      listed_only hkey, Revision.only, Members.only_put, hhost, if_true, only_unlisted]
  | wrap name | head name | inside name lens | convert name mapping source destination =>
    simp only [revise, Roster.only, map_bind, bind_map_left]
    exact bind_congr fun props => redescribe_only h _ _
  | add property =>
    simp only [revise, Roster.only, bind_map_left]
    split
    · rfl
    simp only [map_bind, map_pure]
    refine bind_congr fun props => bind_congr fun description => Json.asKey_bind_congr fun key hkey =>
      bind_congr fun required => ?_
    have hkey' := h key (by simp [names, hkey])
    simp only [Revision.only, Members.only_put, hkey', if_true, hkey]
    split
    · rfl
    · rw [only_enlisted hkey']
  | remove property =>
    simp only [revise, Roster.only, map_bind, bind_map_left, map_pure]
    refine bind_congr fun props => Json.asKey_bind_congr fun key hkey => bind_congr fun required => ?_
    simp only [Revision.only, hkey, Members.only_without, only_unlisted]
  | each lens => rfl

private theorem frame_described (hprops : said.properties = .ok props) {next : Members}
    (hnext : next.only sel = props.only sel) (hdistinct : next.Distinct) :
    (said.after (.described next)).only sel = said.only sel ∧ (said.after (.described next)).Distinct := by
  refine ⟨?_, fun ps hps => Except.ok.inj hps ▸ hdistinct⟩
  simp only [Roster.only, Roster.after, hprops]
  exact congrArg (fun ps => Roster.mk (.ok ps) _) hnext

private theorem frame_told {required names : List Json} (hprops : said.properties = .ok props)
    (hrequired : said.required = .ok required) {next : Members} (hnext : next.only sel = props.only sel)
    (hdistinct : next.Distinct) (hnames : names.filter sel.chosen = required.filter sel.chosen) :
    (said.after (.told next names)).only sel = said.only sel ∧ (said.after (.told next names)).Distinct := by
  refine ⟨?_, fun ps hps => Except.ok.inj hps ▸ hdistinct⟩
  simp only [Roster.only, Roster.after, hprops, hrequired]
  exact congrArg₂ (fun ps ns => Roster.mk (.ok ps) (.ok ns)) hnext hnames

private theorem redescribe_frame (h : Avoids sel [name]) (hprops : said.properties = .ok props)
    (hdistinct : props.Distinct) {step : SchemaStep} {f : Json → Except Fault Json} {r : Revision}
    (hr : redescribe props name step f = .ok r) :
    (said.after r).only sel = said.only sel ∧ (said.after r).Distinct := by
  obtain ⟨key, rfl, hr⟩ := Json.exists_key_of_bind hr
  have hchosen := h key (by simp)
  split at hr
  · obtain ⟨part, -, hr⟩ := Except.exists_of_bind hr
    obtain rfl := Except.ok.inj hr
    exact frame_described hprops (by simp [Members.only_put, hchosen]) (hdistinct.put _ _)
  · cases hr

/-- What an operation says anew leaves what was said about members of other names. -/
theorem LensOp.revise_frame {op : LensOp} (h : Avoids sel op.names) (hdistinct : said.Distinct) {r : Revision}
    (hr : op.revise said = .ok r) : (said.after r).only sel = said.only sel ∧ (said.after r).Distinct := by
  cases op with
  | rename source destination =>
    obtain ⟨props, hprops, hr⟩ := Except.exists_of_bind hr
    obtain ⟨key, rfl, hr⟩ := Json.exists_key_of_bind hr
    split at hr
    · exact Except.ok.inj hr ▸ ⟨rfl, hdistinct⟩
    obtain ⟨key', rfl, hr⟩ := Json.exists_key_of_bind hr
    obtain ⟨required, hrequired, hr⟩ := Except.exists_of_bind hr
    obtain rfl := Except.ok.inj hr
    have hsource := h key (by simp [names])
    have hdestination := h key' (by simp [names])
    exact frame_told hprops hrequired (only_renameKey_of_not hsource hdestination (hdistinct _ hprops))
      (Members.Distinct.putAll .nil _) (only_replaced_of_not hsource hdestination)
  | hoist host name =>
    obtain ⟨props, hprops, hr⟩ := Except.exists_of_bind hr
    obtain ⟨hostKey, rfl, hr⟩ := Json.exists_key_of_bind hr
    split at hr
    · cases hr
    obtain ⟨⟨part, isRequired, outer⟩, -, hr⟩ := Except.exists_of_bind hr
    obtain ⟨key, rfl, hr⟩ := Json.exists_key_of_bind hr
    obtain ⟨required, hrequired, hr⟩ := Except.exists_of_bind hr
    obtain rfl := Except.ok.inj hr
    have hhost := h hostKey (by simp [names])
    have hkey := h key (by simp [names])
    refine frame_told hprops hrequired (by simp [Members.only_put, hhost, hkey])
      (((hdistinct _ hprops).put _ _).put _ _) ?_
    split
    · exact only_enlisted_of_not hkey
    · rfl
  | plunge host name =>
    obtain ⟨props, hprops, hr⟩ := Except.exists_of_bind hr
    obtain ⟨hostKey, rfl, hr⟩ := Json.exists_key_of_bind hr
    split at hr
    · cases hr
    obtain ⟨key, rfl, hr⟩ := Json.exists_key_of_bind hr
    split at hr
    · exact Except.ok.inj hr ▸ ⟨rfl, hdistinct⟩
    obtain ⟨required, hrequired, hr⟩ := Except.exists_of_bind hr
    obtain ⟨old, -, hr⟩ := Except.exists_of_bind hr
    obtain ⟨outer, -, hr⟩ := Except.exists_of_bind hr
    obtain rfl := Except.ok.inj hr
    have hhost := h hostKey (by simp [names])
    have hkey := h key (by simp [names])
    exact frame_told hprops hrequired (by simp [Members.only_put, hhost, Members.only_without_of_not hkey])
      (Members.Distinct.put ((hdistinct _ hprops).filter _) _ _) (only_unlisted_of_not hkey)
  | wrap name | head name | inside name lens | convert name mapping source destination =>
    obtain ⟨props, hprops, hr⟩ := Except.exists_of_bind hr
    exact redescribe_frame h hprops (hdistinct _ hprops) hr
  | add property =>
    simp only [revise] at hr
    split at hr
    · cases hr
    obtain ⟨props, hprops, hr⟩ := Except.exists_of_bind hr
    obtain ⟨description, -, hr⟩ := Except.exists_of_bind hr
    obtain ⟨key, hname, hr⟩ := Json.exists_key_of_bind hr
    obtain ⟨required, hrequired, hr⟩ := Except.exists_of_bind hr
    obtain rfl := Except.ok.inj hr
    have hkey := h key (by simp [names, hname])
    refine frame_told hprops hrequired (by simp [Members.only_put, hkey]) ((hdistinct _ hprops).put _ _) ?_
    split
    · rfl
    · rw [hname, only_enlisted_of_not hkey]
  | remove property =>
    obtain ⟨props, hprops, hr⟩ := Except.exists_of_bind hr
    obtain ⟨key, hname, hr⟩ := Json.exists_key_of_bind hr
    obtain ⟨required, hrequired, hr⟩ := Except.exists_of_bind hr
    obtain rfl := Except.ok.inj hr
    have hkey := h key (by simp [names, hname])
    refine frame_told hprops hrequired (Members.only_without_of_not hkey) ((hdistinct _ hprops).filter _) ?_
    rw [hname, only_unlisted_of_not hkey]
  | each lens => exact Except.ok.inj hr ▸ ⟨rfl, hdistinct⟩

namespace Lens

/-- The names that the operations of a lens are about, those of lenses inside it left out. -/
def names (lens : Lens) : List Json := lens.flatMap LensOp.names

end Lens

namespace Schema

variable {op : LensOp} {rest : Lens}

private theorem Covers.of_cons (h : Covers sel (Lens.names (op :: rest))) :
    Covers sel op.names ∧ Covers sel rest.names :=
  ⟨fun key hkey => h key (List.mem_append_left _ hkey), fun key hkey => h key (List.mem_append_right _ hkey)⟩

private theorem Avoids.of_cons (h : Avoids sel (Lens.names (op :: rest))) :
    Avoids sel op.names ∧ Avoids sel rest.names :=
  ⟨fun key hkey => h key (List.mem_append_left _ hkey), fun key hkey => h key (List.mem_append_right _ hkey)⟩

end Schema

namespace Lens

variable {lens : Lens}

private theorem revise_only (h : Covers sel lens.names) (said : Roster) :
    Lens.revise (said.only sel) lens = Revision.only sel <$> Lens.revise said lens := by
  induction lens generalizing said with
  | nil => rfl
  | cons op rest ih =>
    obtain ⟨hop, hrest⟩ := h.of_cons
    simp only [Lens.revise, LensOp.revise_only hop, map_bind, bind_map_left, map_pure]
    refine bind_congr fun first => ?_
    simp only [← Roster.only_after, ih hrest, bind_map_left, Revision.only_followedBy]

theorem revise_frame (h : Avoids sel lens.names) (hdistinct : said.Distinct) {r : Revision}
    (hr : Lens.revise said lens = .ok r) : (said.after r).only sel = said.only sel ∧ (said.after r).Distinct := by
  induction lens generalizing said r with
  | nil => exact Except.ok.inj hr ▸ ⟨rfl, hdistinct⟩
  | cons op rest ih =>
    obtain ⟨hop, hrest⟩ := h.of_cons
    obtain ⟨first, hfirst, hr⟩ := Except.exists_of_bind hr
    obtain ⟨second, hsecond, hr⟩ := Except.exists_of_bind hr
    obtain rfl := Except.ok.inj hr
    obtain ⟨hkept, hmid⟩ := LensOp.revise_frame hop hdistinct hfirst
    obtain ⟨hkept', hlast⟩ := ih hrest hmid hsecond
    rw [Roster.after_followedBy]
    exact ⟨hkept'.trans hkept, hlast⟩

/-- What a lens says anew about chosen members is the same after a lens about other names. -/
theorem revise_after (h : Covers sel lens.names) {other : Lens} (hother : Avoids sel other.names)
    (hdistinct : said.Distinct) {r : Revision} (hr : Lens.revise said other = .ok r) :
    Revision.only sel <$> Lens.revise (said.after r) lens = Revision.only sel <$> Lens.revise said lens := by
  rw [← revise_only h, (revise_frame hother hdistinct hr).1, revise_only h]

end Lens

end EditLens
