import InductiveTerms.Environment.Global
import InductiveTerms.Proofs.TypingRules

/-!
The entries of an environment. Every name has one entry, and an environment is told by what it has
under each name: the latest entry that was put there (`get?_insertMany`). Lists of declarations one
after the other are therefore looked up in the later one first (`get?_ofDeclarations_append`). The
names that failures are reported under are those of the entries whose check fails
(`mem_failures_iff`).
-/
namespace InductiveTerms.GlobalEnv
variable {env : GlobalEnv} {x y : String} {e : GlobalEntry}

section Lookup

theorem lookup_cons_eq (p : String × GlobalEntry) (es : List (String × GlobalEntry)) (y : String) :
    (p :: es).lookup y = if y = p.1 then some p.2 else es.lookup y := by
  rw [List.lookup_cons]
  by_cases h : y = p.1
  · rw [if_pos h, beq_iff_eq.2 h]
  · rw [if_neg h, beq_false_of_ne h]

theorem lookup_putEntry (x y : String) (e : GlobalEntry) (es : List (String × GlobalEntry)) :
    (putEntry x e es).lookup y = if y = x then some e else es.lookup y := by
  induction es with
  | nil => exact lookup_cons_eq (x, e) [] y
  | cons p es ih =>
    obtain ⟨z, f⟩ := p
    rw [putEntry]
    split
    · next hz =>
      subst hz
      rw [lookup_cons_eq, lookup_cons_eq]
      split <;> rfl
    · next hz =>
      rw [lookup_cons_eq, lookup_cons_eq, ih]
      by_cases h : y = z
      · rw [if_pos h, if_pos h, if_neg (h ▸ hz)]
      · rw [if_neg h, if_neg h]

theorem get?_insert (env : GlobalEnv) (x y : String) (e : GlobalEntry) :
    (env.insert x e).get? y = if y = x then some e else env.get? y :=
  lookup_putEntry x y e env.entries

/-- The latest of the entries that are put under one name stays. -/
theorem get?_insertMany (env : GlobalEnv) (es : List (String × GlobalEntry)) (y : String) :
    (env.insertMany es).get? y = (es.reverse.lookup y).or (env.get? y) := by
  induction es generalizing env with
  | nil => rfl
  | cons p es ih =>
    change ((env.insert p.1 p.2).insertMany es).get? y = _
    rw [ih, get?_insert, List.reverse_cons, List.lookup_append, Option.or_assoc, lookup_cons_eq]
    split <;> rfl

theorem memberEntries_append (path : String) (ds es : List Declaration) :
    memberEntries path (ds ++ es) = memberEntries path ds ++ memberEntries path es := by
  induction ds with
  | nil => rfl
  | cons d ds ih => rw [List.cons_append, memberEntries, ih, memberEntries, List.append_assoc]

theorem get?_ofDeclarations (ds : List Declaration) (y : String) :
    (ofDeclarations ds).get? y = (memberEntries "" ds).reverse.lookup y := by
  rw [ofDeclarations, get?_insertMany]
  exact Option.or_none

/-- What is declared later comes first. -/
theorem get?_ofDeclarations_append (ds es : List Declaration) (y : String) :
    (ofDeclarations (ds ++ es)).get? y =
      ((ofDeclarations es).get? y).or ((ofDeclarations ds).get? y) := by
  rw [get?_ofDeclarations, get?_ofDeclarations, get?_ofDeclarations, memberEntries_append,
    List.reverse_append, List.lookup_append]

theorem mem_names_iff : x ∈ env.names ↔ (env.get? x).isSome := by
  rw [names, get?, List.lookup_isSome_iff, List.mem_map]
  exact exists_congr fun p => and_congr_right fun _ => by rw [beq_iff_eq, eq_comm]

end Lookup

section Unique

theorem names_putEntry (x : String) (e : GlobalEntry) (es : List (String × GlobalEntry)) :
    (putEntry x e es).map (·.1) =
      if x ∈ es.map (·.1) then es.map (·.1) else es.map (·.1) ++ [x] := by
  induction es with
  | nil => rfl
  | cons p es ih =>
    obtain ⟨z, f⟩ := p
    rw [putEntry]
    by_cases hz : z = x
    · simp [hz]
    · rw [if_neg hz, List.map_cons, ih]
      by_cases hx : x ∈ es.map (·.1)
      · rw [if_pos hx, List.map_cons, if_pos (List.mem_cons_of_mem _ hx)]
      · have hcons : x ∉ z :: es.map (·.1) := by
          rw [List.mem_cons, not_or]
          exact ⟨Ne.symm hz, hx⟩
        rw [if_neg hx, List.map_cons, if_neg hcons, List.cons_append]

theorem nodup_names_insert (h : env.names.Nodup) (x : String) (e : GlobalEntry) :
    (env.insert x e).names.Nodup := by
  change ((putEntry x e env.entries).map (·.1)).Nodup
  rw [names_putEntry]
  split
  · exact h
  · next hx =>
    refine List.nodup_append.2 ⟨h, List.pairwise_singleton _ x, fun y hy z hz => ?_⟩
    rw [List.mem_singleton.1 hz]
    exact fun hyx => hx (hyx ▸ hy)

theorem nodup_names_insertMany (h : env.names.Nodup) (es : List (String × GlobalEntry)) :
    (env.insertMany es).names.Nodup := by
  induction es generalizing env with
  | nil => exact h
  | cons p es ih => exact ih (nodup_names_insert h p.1 p.2)

theorem nodup_names_ofDeclarations (ds : List Declaration) : (ofDeclarations ds).names.Nodup :=
  @nodup_names_insertMany empty List.nodup_nil _

/-- Where every name has one entry, an entry is what is found under its name. -/
theorem mem_entries_iff (h : env.names.Nodup) : (x, e) ∈ env.entries ↔ env.get? x = some e := by
  rw [get?, List.lookup_eq_some_iff]
  constructor
  · intro hmem
    obtain ⟨before, after, hsplit⟩ := List.append_of_mem hmem
    refine ⟨before, after, hsplit, fun p hp => ?_⟩
    rw [names, hsplit, List.map_append, List.map_cons, List.nodup_append] at h
    rw [bne_iff_ne]
    exact (h.2.2 p.1 (List.mem_map_of_mem hp) x List.mem_cons_self).symm
  · rintro ⟨before, after, hsplit, _⟩
    rw [hsplit]
    exact List.mem_append_right _ List.mem_cons_self

end Unique

section Failures

/-- The check of an entry: of its type and then of its value, if it has one. -/
def checkEntry (ctx : Context) (e : GlobalEntry) : Except TypeError Unit :=
  value (checkEntryM ctx e)

theorem checkEntry_eq (ctx : Context) (e : GlobalEntry) :
    checkEntry ctx e = (do
      let _ ← e.type.check ctx
      checkArgs e.value.toList ctx) := by
  refine (value_bind _ _).trans (bind_congr fun _ => ?_)
  cases e.value with
  | none => rfl
  | some v =>
    rw [Option.toList_some, checkArgs_cons_eq]
    exact value_bind _ _

theorem checkEntries_cons_of_ok {ctx : Context} (es : List (String × GlobalEntry))
    (h : checkEntry ctx e = .ok ()) :
    Id.run (checkEntriesM ctx ((x, e) :: es)) = Id.run (checkEntriesM ctx es) := by
  have hrun : (checkEntryM (m := Id) ctx e).run = .ok () := h
  simp only [checkEntriesM, hrun]
  rfl

theorem checkEntries_cons_of_error {ctx : Context} {err : TypeError}
    (es : List (String × GlobalEntry)) (h : checkEntry ctx e = .error err) :
    Id.run (checkEntriesM ctx ((x, e) :: es)) = (x, err) :: Id.run (checkEntriesM ctx es) := by
  have hrun : (checkEntryM (m := Id) ctx e).run = .error err := h
  simp only [checkEntriesM, hrun]
  rfl

theorem mem_checkEntries_iff {ctx : Context} {es : List (String × GlobalEntry)} {err : TypeError} :
    (x, err) ∈ Id.run (checkEntriesM ctx es) ↔
      ∃ e, (x, e) ∈ es ∧ checkEntry ctx e = .error err := by
  induction es with
  | nil => simp [checkEntriesM]
  | cons p es ih =>
    obtain ⟨y, f⟩ := p
    have hcons : (∃ e, (x, e) ∈ (y, f) :: es ∧ checkEntry ctx e = .error err) ↔
        (x = y ∧ checkEntry ctx f = .error err) ∨
          ∃ e, (x, e) ∈ es ∧ checkEntry ctx e = .error err := by
      simp only [List.mem_cons, Prod.mk.injEq, or_and_right, exists_or, and_assoc,
        exists_and_left, exists_eq_left]
    rw [hcons, ← ih]
    cases hf : checkEntry ctx f with
    | ok _ =>
      rw [checkEntries_cons_of_ok es hf]
      simp
    | error err' =>
      rw [checkEntries_cons_of_error es hf]
      simp [eq_comm]

/-- Reported are the names of the entries that do not check, with what is wrong. -/
theorem mem_failures_iff {err : TypeError} :
    (x, err) ∈ env.failures ↔
      ∃ e, (x, e) ∈ env.entries ∧ checkEntry env.context e = .error err :=
  mem_checkEntries_iff

theorem mem_failures_entry_iff {err : TypeError} (h : env.names.Nodup) (he : (x, e) ∈ env.entries) :
    (x, err) ∈ env.failures ↔ checkEntry env.context e = .error err := by
  rw [mem_failures_iff]
  constructor
  · rintro ⟨f, hf, herr⟩
    obtain rfl := Option.some.inj (((mem_entries_iff h).1 hf).symm.trans ((mem_entries_iff h).1 he))
    exact herr
  · exact fun herr => ⟨e, he, herr⟩

end Failures
end InductiveTerms.GlobalEnv
