import Mathlib.Data.List.Induction
import Mathlib.Data.List.Nodup
import Mathlib.Data.List.Pairwise
import InductiveTerms.Proofs.Entries

/-!
Environments are put together from those of their parts. Declarations that come later update the
environment of those before them (`ofDeclarations_append`), and a module stands for the environment
of its members, qualified with its name (`ofDeclarations_enclosed`). Where all names are distinct
the entries are those declared, in order, so that an inductive type lists the constructors that it
was declared with, and no other type lists them (`ofDeclarations_compositional`).
-/
namespace InductiveTerms

mutual
/-- The inductive types that a declaration introduces, each with the path that it stands under. -/
def Declaration.types (path : String) : Declaration → List (String × InductiveType)
  | .definition .. => []
  | .postulate .. => []
  | .inductiveTypes types => types.map (path, ·)
  | .module _ ⟨_, .alias _⟩ => []
  | .module x ⟨_, .members _ ds⟩ => memberTypes (path ++ x ++ ".") ds
  | .moduleType _ _ => []
termination_by structural d => d

def memberTypes (path : String) : List Declaration → List (String × InductiveType)
  | [] => []
  | d :: ds => d.types path ++ memberTypes path ds
termination_by structural ds => ds
end

namespace GlobalEnv
variable {env env' new : GlobalEnv}

section Names

theorem get?_eq_none {y : String} (h : y ∉ env.names) : env.get? y = none :=
  Option.not_isSome_iff_eq_none.1 fun hsome => h (mem_names_iff.2 hsome)

/-- An environment is told by the order of its names and by what it has under each. -/
theorem eq_of_names (h : env.names.Nodup) (hnames : env'.names = env.names)
    (hget : ∀ y, env'.get? y = env.get? y) : env' = env := by
  obtain ⟨es⟩ := env
  obtain ⟨es'⟩ := env'
  simp only [names] at h hnames
  congr 1
  induction es generalizing es' with
  | nil => exact List.map_eq_nil_iff.1 hnames
  | cons p es ih =>
    obtain ⟨q, es', rfl, hq, htail⟩ := List.map_eq_cons_iff.1 hnames
    obtain ⟨hp, hnodup⟩ := List.nodup_cons.1 h
    have hhead : q.2 = p.2 := by
      have hp := hget p.1
      rw [get?, get?, lookup_cons_eq, lookup_cons_eq, if_pos rfl, if_pos hq.symm] at hp
      exact Option.some.inj hp
    have hrest : ∀ y, GlobalEnv.get? ⟨es'⟩ y = GlobalEnv.get? ⟨es⟩ y := by
      intro y
      by_cases hy : y = p.1
      · have hp' : p.1 ∉ names ⟨es'⟩ := by rwa [names, htail]
        rw [hy, get?_eq_none hp', get?_eq_none hp]
      · have hy' := hget y
        rwa [get?, get?, lookup_cons_eq, lookup_cons_eq, if_neg hy, if_neg (hq ▸ hy)] at hy'
    rw [ih hnodup es' htail hrest, Prod.ext hq hhead]

theorem names_insert (env : GlobalEnv) (x : String) (e : GlobalEntry) :
    (env.insert x e).names = if x ∈ env.names then env.names else env.names ++ [x] :=
  names_putEntry x e env.entries

theorem insertMany_append (env : GlobalEnv) (es fs : List (String × GlobalEntry)) :
    env.insertMany (es ++ fs) = (env.insertMany es).insertMany fs := List.foldl_append

theorem insertMany_concat (env : GlobalEnv) (es : List (String × GlobalEntry))
    (p : String × GlobalEntry) : env.insertMany (es ++ [p]) = (env.insertMany es).insert p.1 p.2 :=
  insertMany_append env es [p]

/-- The names that an environment does not have follow it in the order in which they come. -/
theorem names_insertMany (env : GlobalEnv) (es : List (String × GlobalEntry)) :
    (env.insertMany es).names =
      env.names ++ (empty.insertMany es).names.filter (· ∉ env.names) := by
  induction es using List.reverseRecOn with
  | nil => exact (List.append_nil _).symm
  | append_singleton es p ih =>
    simp only [insertMany_concat, names_insert, ih, List.mem_append, List.mem_filter]
    by_cases hold : p.1 ∈ env.names <;> by_cases hnew : p.1 ∈ (empty.insertMany es).names <;>
      simp [hold, hnew]

end Names

section Append

/-- The environment with the entries of another put in: a name keeps its place and gets the entry
that the other has for it, if there is one, and the other's new names follow in order. -/
def updated (env new : GlobalEnv) : GlobalEnv :=
  ⟨env.entries.map (fun p => (p.1, (new.get? p.1).getD p.2)) ++
    new.entries.filter fun p => p.1 ∉ env.names⟩

theorem names_updated (env new : GlobalEnv) :
    (env.updated new).names = env.names ++ new.names.filter (· ∉ env.names) := by
  simp [names, updated, List.filter_map, Function.comp_def]

theorem lookup_map (f : String → GlobalEntry → GlobalEntry) (es : List (String × GlobalEntry))
    (y : String) : (es.map fun p => (p.1, f p.1 p.2)).lookup y = (es.lookup y).map (f y) := by
  induction es with
  | nil => rfl
  | cons p es ih =>
    rw [List.map_cons, lookup_cons_eq, lookup_cons_eq, ih]
    by_cases h : y = p.1
    · rw [if_pos h, if_pos h, Option.map_some, h]
    · rw [if_neg h, if_neg h]

theorem lookup_filter (keep : String → Prop) [DecidablePred keep]
    (es : List (String × GlobalEntry)) (y : String) :
    (es.filter fun p => keep p.1).lookup y = if keep y then es.lookup y else none := by
  induction es with
  | nil => simp
  | cons p es ih =>
    rw [List.filter_cons, lookup_cons_eq]
    by_cases h : y = p.1
    · subst h
      by_cases hkeep : keep p.1
      · simp [hkeep, lookup_cons_eq]
      · simp only [hkeep, decide_false, Bool.false_eq_true, if_false, ih]
    · by_cases hkeep : keep p.1 <;> simp [h, hkeep, lookup_cons_eq, ih]

theorem get?_updated (env new : GlobalEnv) (y : String) :
    (env.updated new).get? y = (new.get? y).or (env.get? y) := by
  have hold := lookup_map (fun x e => (new.get? x).getD e) env.entries y
  have hnew := lookup_filter (· ∉ env.names) new.entries y
  rw [get?, updated, List.lookup_append, hold, hnew]
  by_cases hy : y ∈ env.names
  · obtain ⟨e, he⟩ := Option.isSome_iff_exists.1 (mem_names_iff.1 hy)
    change env.entries.lookup y = some e at he
    cases hn : new.get? y <;> simp [get?, he, hy]
  · have hnone : env.entries.lookup y = none := get?_eq_none hy
    simp [get?, hnone, hy]

/-- Later declarations update the environment of the earlier ones. -/
theorem ofDeclarations_append (ds es : List Declaration) :
    ofDeclarations (ds ++ es) = (ofDeclarations ds).updated (ofDeclarations es) := by
  have hnames : (ofDeclarations (ds ++ es)).names =
      ((ofDeclarations ds).updated (ofDeclarations es)).names := by
    rw [names_updated, ofDeclarations, memberEntries_append, insertMany_append, names_insertMany]
    rfl
  refine eq_of_names (hnames ▸ nodup_names_ofDeclarations (ds ++ es)) hnames fun y => ?_
  rw [get?_ofDeclarations_append, get?_updated]

end Append

section Modules

/-- An entry under a module path. -/
def qualify (path : String) (p : String × GlobalEntry) : String × GlobalEntry :=
  (path ++ p.1, { p.2 with constructors := p.2.constructors.map (path ++ ·) })

/-- The environment with every name and every listed constructor qualified. -/
def qualified (env : GlobalEnv) (path : String) : GlobalEnv := ⟨env.entries.map (qualify path)⟩

theorem qualify_qualify (path path' : String) (p : String × GlobalEntry) :
    qualify path (qualify path' p) = qualify (path ++ path') p := by
  simp [qualify, String.append_assoc, Function.comp_def]

theorem qualified_qualified (env : GlobalEnv) (path path' : String) :
    (env.qualified path').qualified path = env.qualified (path ++ path') := by
  simp [qualified, Function.comp_def, qualify_qualify]

theorem inductiveEntries_qualify (path path' : String) (types : List InductiveType) :
    inductiveEntries (path ++ path') types =
      (inductiveEntries path' types).map (qualify path) := by
  simp [inductiveEntries, qualify, List.map_flatMap, String.append_assoc, Function.comp_def]

mutual
/-- What a declaration introduces under a path it introduces under a longer one with that path in
front of it. -/
theorem entries_qualify (path : String) : ∀ (path' : String) (d : Declaration),
    d.entries (path ++ path') = (d.entries path').map (qualify path)
  | path', .definition x t v => by
    simp [Declaration.entries, qualify, String.append_assoc]
  | path', .postulate x t => by simp [Declaration.entries, qualify, String.append_assoc]
  | path', .inductiveTypes types => inductiveEntries_qualify path path' types
  | _, .module _ ⟨_, .alias _⟩ => rfl
  | path', .module x ⟨_, .members _ ds⟩ => by
    rw [Declaration.entries, Declaration.entries, ← memberEntries_qualify path _ ds]
    simp only [String.append_assoc]
  | _, .moduleType _ _ => rfl
termination_by structural _ d => d

theorem memberEntries_qualify (path : String) : ∀ (path' : String) (ds : List Declaration),
    memberEntries (path ++ path') ds = (memberEntries path' ds).map (qualify path)
  | _, [] => rfl
  | path', d :: ds => by
    rw [memberEntries, memberEntries, List.map_append, entries_qualify path path' d,
      memberEntries_qualify path path' ds]
termination_by structural _ ds => ds
end

theorem putEntry_qualify (path x : String) (e : GlobalEntry) (es : List (String × GlobalEntry)) :
    (putEntry x e es).map (qualify path) =
      putEntry (qualify path (x, e)).1 (qualify path (x, e)).2 (es.map (qualify path)) := by
  induction es with
  | nil => rfl
  | cons p es ih =>
    by_cases h : p.1 = x
    · simp [putEntry, qualify, h]
    · have hpath : path ++ p.1 ≠ path ++ x := fun heq => h ((String.append_right_inj path).1 heq)
      simp only [qualify] at ih
      simp [putEntry, qualify, h, hpath, ih]

theorem insertMany_qualify (env : GlobalEnv) (path : String) (es : List (String × GlobalEntry)) :
    (env.insertMany es).qualified path =
      (env.qualified path).insertMany (es.map (qualify path)) := by
  induction es generalizing env with
  | nil => rfl
  | cons p es ih =>
    have hinsert : (env.insert p.1 p.2).qualified path =
        (env.qualified path).insert (qualify path p).1 (qualify path p).2 :=
      congrArg GlobalEnv.mk (putEntry_qualify path p.1 p.2 env.entries)
    exact (ih (env.insert p.1 p.2)).trans (by rw [hinsert]; rfl)

/-- A module with members of its own: all of it but the members. -/
structure ModuleHeading where
  id : String
  params : List (String × ModuleExpr)
  type : Option ModuleExpr

/-- Declarations inside modules, the outermost module first. -/
def enclosed (ms : List ModuleHeading) (ds : List Declaration) : List Declaration :=
  ms.foldr (fun m ds => [.module m.id ⟨m.params, .members m.type ds⟩]) ds

def modulePath (ms : List ModuleHeading) : String := String.join (ms.map (·.id ++ "."))

theorem ofDeclarations_module (m : ModuleHeading) (ds : List Declaration) :
    ofDeclarations [.module m.id ⟨m.params, .members m.type ds⟩] =
      (ofDeclarations ds).qualified (m.id ++ ".") := by
  have hentries : memberEntries "" [.module m.id ⟨m.params, .members m.type ds⟩] =
      (memberEntries "" ds).map (qualify (m.id ++ ".")) := by
    rw [← memberEntries_qualify]
    simp [memberEntries, Declaration.entries]
  rw [ofDeclarations, hentries, ofDeclarations, insertMany_qualify]
  rfl

/-- Declarations inside modules make the environment that they make outside, qualified. -/
theorem ofDeclarations_enclosed (ms : List ModuleHeading) (ds : List Declaration) :
    ofDeclarations (enclosed ms ds) = (ofDeclarations ds).qualified (modulePath ms) := by
  induction ms with
  | nil =>
    have hnone : qualify "" = id := by
      funext p
      simp [qualify]
    simp [enclosed, modulePath, qualified, hnone]
  | cons m ms ih =>
    have hpath : modulePath (m :: ms) = m.id ++ "." ++ modulePath ms := by
      simp [modulePath, String.join_cons]
    rw [hpath, ← qualified_qualified, ← ih]
    exact ofDeclarations_module m (enclosed ms ds)

end Modules

section Constructors

/-- The names that declarations introduce, qualified, in order. -/
def introduced (ds : List Declaration) : List String := (memberEntries "" ds).map (·.1)

/-- What an inductive type under a path introduces of a kind. -/
def entriesOfKind : GlobalKind → String × InductiveType → List (String × GlobalEntry)
  | .inductiveType, t =>
      [(t.1 ++ t.2.id, ⟨.inductiveType, t.2.type, none, t.2.constructors.map (t.1 ++ ·.id)⟩)]
  | .constructor, t => t.2.constructors.map fun c => (t.1 ++ c.id, ⟨.constructor, c.type, none, []⟩)
  | .definition, _ => []
  | .postulate, _ => []

theorem filter_inductiveEntries {kind : GlobalKind} (path : String) (types : List InductiveType) :
    (inductiveEntries path types).filter (·.2.kind = kind) =
      (types.map (path, ·)).flatMap (entriesOfKind kind) := by
  simp only [inductiveEntries, List.filter_append, List.filter_map, List.filter_flatMap,
    List.flatMap_map, Function.comp_def]
  cases kind with
  | inductiveType =>
    simp only [entriesOfKind, ← List.map_eq_flatMap]
    simp
  | constructor | definition | postulate => simp [entriesOfKind]

mutual
theorem filter_entries {kind : GlobalKind} (hkind : kind = .inductiveType ∨ kind = .constructor) :
    ∀ (path : String) (d : Declaration),
    (d.entries path).filter (·.2.kind = kind) = (d.types path).flatMap (entriesOfKind kind)
  | path, .definition x t v => by
    rcases hkind with rfl | rfl <;> rfl
  | path, .postulate x t => by
    rcases hkind with rfl | rfl <;> rfl
  | path, .inductiveTypes types => filter_inductiveEntries path types
  | _, .module _ ⟨_, .alias _⟩ => rfl
  | path, .module x ⟨_, .members _ ds⟩ => filter_memberEntries hkind (path ++ x ++ ".") ds
  | _, .moduleType _ _ => rfl
termination_by structural _ d => d

/-- The entries of either kind are those of the inductive types declared. -/
theorem filter_memberEntries {kind : GlobalKind}
    (hkind : kind = .inductiveType ∨ kind = .constructor) :
    ∀ (path : String) (ds : List Declaration),
    (memberEntries path ds).filter (·.2.kind = kind) =
      (memberTypes path ds).flatMap (entriesOfKind kind)
  | _, [] => rfl
  | path, d :: ds => by
    rw [memberEntries, memberTypes, List.filter_append, List.flatMap_append,
      filter_entries hkind path d, filter_memberEntries hkind path ds]
termination_by structural _ ds => ds
end

theorem mem_memberEntries_iff {kind : GlobalKind} {path x : String} {e : GlobalEntry}
    {ds : List Declaration} (hkind : kind = .inductiveType ∨ kind = .constructor) :
    ((x, e) ∈ memberEntries path ds ∧ e.kind = kind) ↔
      ∃ t ∈ memberTypes path ds, (x, e) ∈ entriesOfKind kind t := by
  rw [← List.mem_flatMap, ← filter_memberEntries hkind, List.mem_filter, decide_eq_true_eq]

theorem putEntry_of_not_mem {x : String} {es : List (String × GlobalEntry)}
    (h : x ∉ es.map (·.1)) (e : GlobalEntry) : putEntry x e es = es ++ [(x, e)] := by
  induction es with
  | nil => rfl
  | cons p es ih =>
    rw [List.map_cons, List.mem_cons, not_or] at h
    simp [putEntry, Ne.symm h.1, ih h.2]

/-- Where no name comes twice, every entry is put at the end. -/
theorem entries_insertMany {es : List (String × GlobalEntry)} (h : (es.map (·.1)).Nodup) :
    (empty.insertMany es).entries = es := by
  induction es using List.reverseRecOn with
  | nil => rfl
  | append_singleton es p ih =>
    rw [List.map_append, List.map_singleton, List.nodup_append] at h
    rw [insertMany_concat, insert, ih h.1]
    refine putEntry_of_not_mem (fun hmem => ?_) p.2
    exact h.2.2 p.1 hmem p.1 (List.mem_singleton_self _) rfl

section Distinct
variable {ds : List Declaration} (h : (introduced ds).Nodup)
include h

theorem get?_eq_some_iff {x : String} {e : GlobalEntry} :
    (ofDeclarations ds).get? x = some e ↔ (x, e) ∈ memberEntries "" ds := by
  rw [← mem_entries_iff (nodup_names_ofDeclarations ds), ofDeclarations, entries_insertMany h]

theorem constructors?_eq_some_iff {x : String} {cs : List String} :
    (ofDeclarations ds).constructors? x = some cs ↔ ∃ t ∈ memberTypes "" ds,
      x = t.1 ++ t.2.id ∧ cs = t.2.constructors.map (t.1 ++ ·.id) := by
  simp only [constructors?, Option.bind_eq_some_iff, get?_eq_some_iff h,
    Option.ite_none_right_eq_some, Option.some.injEq]
  constructor
  · rintro ⟨e, he, hkind, rfl⟩
    obtain ⟨t, ht, hmem⟩ := (mem_memberEntries_iff (.inl rfl)).1 ⟨he, hkind⟩
    obtain ⟨rfl, rfl⟩ := Prod.mk.inj (List.mem_singleton.1 hmem)
    exact ⟨t, ht, rfl, rfl⟩
  · rintro ⟨t, ht, rfl, rfl⟩
    have hmem := (mem_memberEntries_iff (.inl rfl)).2 ⟨t, ht, List.mem_singleton_self _⟩
    exact ⟨_, hmem.1, rfl, rfl⟩

/-- No constructor is declared twice. -/
theorem nodup_constructors :
    ((memberTypes "" ds).flatMap fun t => t.2.constructors.map (t.1 ++ ·.id)).Nodup := by
  have hsublist : ((memberEntries "" ds).filter (·.2.kind = .constructor)).map (·.1) |>.Nodup :=
    List.Nodup.sublist (List.filter_sublist.map _) h
  rw [filter_memberEntries (.inr rfl), List.map_flatMap] at hsublist
  simpa [entriesOfKind, Function.comp_def] using hsublist

/-- Each constructor is listed by the type that it was declared with, and by no other. -/
theorem listed_once {t u : String × InductiveType} (ht : t ∈ memberTypes "" ds)
    (hu : u ∈ memberTypes "" ds) {c : String} (htc : c ∈ t.2.constructors.map (t.1 ++ ·.id))
    (huc : c ∈ u.2.constructors.map (u.1 ++ ·.id)) : t = u := by
  by_contra hne
  have hdisjoint := (List.nodup_flatMap.1 (nodup_constructors h)).2
  have hsymm : Std.Symm (Function.onFun List.Disjoint fun t : String × InductiveType =>
      t.2.constructors.map (t.1 ++ ·.id)) := ⟨fun _ _ hxy _ hy hx => hxy hx hy⟩
  exact hdisjoint.forall ht hu hne htc huc

end Distinct

/-- What an environment says of constructors: the names that it has constructors for are those of
inductive types, it lists for each of them the constructors that the type was declared with, whose
entries have the types declared, and every constructor is listed for one type only, once. -/
structure ListsConstructors (ds : List Declaration) (env : GlobalEnv) : Prop where
  defined_iff : ∀ x, (env.constructors? x).isSome ↔ ∃ e ∈ env.get? x, e.kind = .inductiveType
  declared : ∀ x cs, env.constructors? x = some cs → ∃ t ∈ memberTypes "" ds,
    x = t.1 ++ t.2.id ∧ cs = t.2.constructors.map (t.1 ++ ·.id) ∧ cs.Nodup ∧
      ∀ c ∈ t.2.constructors, env.get? (t.1 ++ c.id) = some ⟨.constructor, c.type, none, []⟩
  listed : ∀ c e, env.get? c = some e → e.kind = .constructor →
    ∃! x, ∃ cs, env.constructors? x = some cs ∧ c ∈ cs

theorem listsConstructors {ds : List Declaration} (h : (introduced ds).Nodup) :
    ListsConstructors ds (ofDeclarations ds) where
  defined_iff x := by
    simp only [constructors?, Option.isSome_bind, Option.any_eq_true, Option.isSome_ite]
    rfl
  declared x cs hcs := by
    obtain ⟨t, ht, rfl, rfl⟩ := (constructors?_eq_some_iff h).1 hcs
    refine ⟨t, ht, rfl, rfl, (List.nodup_flatMap.1 (nodup_constructors h)).1 t ht, fun c hc => ?_⟩
    have hentry : (t.1 ++ c.id, ⟨.constructor, c.type, none, []⟩) ∈ entriesOfKind .constructor t :=
      List.mem_map_of_mem hc
    exact (get?_eq_some_iff h).2 ((mem_memberEntries_iff (.inr rfl)).2 ⟨t, ht, hentry⟩).1
  listed c e he hkind := by
    obtain ⟨t, ht, hmem⟩ :=
      (mem_memberEntries_iff (.inr rfl)).1 ⟨(get?_eq_some_iff h).1 he, hkind⟩
    obtain ⟨d, hd, heq⟩ := List.mem_map.1 hmem
    have hc : c ∈ t.2.constructors.map (t.1 ++ ·.id) :=
      List.mem_map.2 ⟨d, hd, congrArg Prod.fst heq⟩
    refine ⟨t.1 ++ t.2.id, ⟨_, (constructors?_eq_some_iff h).2 ⟨t, ht, rfl, rfl⟩, hc⟩, ?_⟩
    rintro x ⟨cs, hcs, hx⟩
    obtain ⟨u, hu, rfl, rfl⟩ := (constructors?_eq_some_iff h).1 hcs
    rw [listed_once h hu ht hx hc]

end Constructors

/-- The environment of declarations one after the other is that of the first updated by that of the
others; the environment of declarations inside modules is theirs, qualified with the path; and where
no qualified name is introduced twice, inductive types list their constructors and nothing else
does. -/
theorem ofDeclarations_compositional :
    (∀ ds es, ofDeclarations (ds ++ es) = (ofDeclarations ds).updated (ofDeclarations es)) ∧
    (∀ (m : ModuleHeading) ds, ofDeclarations [.module m.id ⟨m.params, .members m.type ds⟩] =
      (ofDeclarations ds).qualified (m.id ++ ".")) ∧
    (∀ ms ds, ofDeclarations (enclosed ms ds) = (ofDeclarations ds).qualified (modulePath ms)) ∧
    ∀ ds, (introduced ds).Nodup → ListsConstructors ds (ofDeclarations ds) :=
  ⟨ofDeclarations_append, ofDeclarations_module, ofDeclarations_enclosed,
    fun _ h => listsConstructors h⟩

/-- Two mutual types inside a module, one of which has a constructor of a name that is also that of
a type outside. -/
def evenAndOdd : List Declaration :=
  [.inductiveTypes [⟨"S", .univ .set, [⟨"O", .global "S"⟩]⟩],
    .module "M" ⟨[], .members none
      [.inductiveTypes [⟨"even", .univ .set, [⟨"O", .global "M.even"⟩, ⟨"S", .product
          [⟨none, .global "M.odd"⟩] (.global "M.even")⟩]⟩,
        ⟨"odd", .univ .set, [⟨"T", .product [⟨none, .global "M.even"⟩] (.global "M.odd")⟩]⟩]]⟩]

theorem ofDeclarations_compositional_evenAndOdd :
    (introduced evenAndOdd).Nodup ∧ ListsConstructors evenAndOdd (ofDeclarations evenAndOdd) ∧
      (ofDeclarations evenAndOdd).names =
        ["S", "O", "M.even", "M.odd", "M.O", "M.S", "M.T"] ∧
      (ofDeclarations evenAndOdd).constructors? "M.even" = some ["M.O", "M.S"] := by
  have h : (introduced evenAndOdd).Nodup := by decide
  exact ⟨h, ofDeclarations_compositional.2.2.2 evenAndOdd h, rfl, rfl⟩

end GlobalEnv
end InductiveTerms
