import InductiveTerms.Proofs.Merging
import InductiveTerms.Proofs.Nodes

/-!
The selections of a term: where a function is selected from a bundle, and how many binders there are
around it. `selections` lists them as a reader meets them, `selectionAt?` finds one by the way down
to it. Merging nested nodes changes neither the selections nor their order
(`selections_flatten?`).

A bundle is told from others by its label; `unlabel` erases the labels and leaves the names.
-/
namespace InductiveTerms.Term

/-- Erases the label of the bundle that a node selects from. -/
def unlabelNode : Term → Term
  | .fix i b => .fix i ⟨none, b.functions⟩
  | t => t

/-- The term without the labels of its bundles. -/
def unlabel (t : Term) : Term := everywhere (fun u _ => u.unlabelNode) t 0

theorem unlabel_eq (t : Term) (d : Nat) :
    t.unlabel = (t.mapChildren (fun c _ => c.unlabel) d).unlabelNode := by
  have hdepth : t.mapChildren (everywhere fun u _ => u.unlabelNode) d =
      t.mapChildren (fun c _ => c.unlabel) d :=
    mapChildren_congr fun c _ => everywhere_depth unlabelNode c.1 c.2 0
  rw [unlabel, everywhere_depth unlabelNode t 0 d, everywhere_eq, hdepth]

section Rebuilt

theorem RebuiltParams.eq {ps qs : List (Param Term)} {d : Nat}
    (h : RebuiltParams (fun c _ w => c = w) ps d qs) : ps = qs := by
  induction h with
  | nil => rfl
  | cons ht _ ih => rw [ht, ih]

theorem RebuiltFunction.eq {f g : FixFunction Term} {d : Nat}
    (h : RebuiltFunction (fun c _ w => c = w) f d g) : f = g := by
  obtain ⟨hname, hparams, hresult, hbody⟩ := h
  have hparams := hparams.eq
  cases f
  cases g
  simp_all

theorem RebuiltBranch.eq {b c : Branch Term} {d : Nat}
    (h : RebuiltBranch (fun c _ w => c = w) d b c) : b = c := by
  obtain ⟨hconstructor, harity, hbody⟩ := h
  cases b
  cases c
  simp_all

/-- Nodes of one layout with the same children differ in the label of a bundle at most. -/
theorem Rebuilt.unlabelNode_eq {t u : Term} {d : Nat} (h : Rebuilt (fun c _ w => c = w) t d u) :
    t.unlabelNode = u.unlabelNode := by
  have hall : ∀ {as bs : List Term}, List.Forall₂ (fun a b => a = b) as bs → as = bs :=
    fun h => List.forall₂_eq_eq_eq ▸ h
  cases h with
  | var => rfl
  | global => rfl
  | univ => rfl
  | product hps hr => rw [hps.eq, hr]
  | lambda hps hb => rw [hps.eq, hb]
  | letIn hv ht hb => rw [hv, ht, hb]
  | apply hf has => rw [hf, Arguments.toList_inj.1 (hall has)]
  | cast ht hty => rw [ht, hty]
  | caseOf hp hs hbs =>
    have hbranches := hbs.imp fun _ _ h => h.eq
    rw [List.forall₂_eq_eq_eq] at hbranches
    rw [hp, hs, hbranches]
  | fix hfs =>
    have hfunctions := hfs.imp fun _ _ h => h.eq
    rw [List.forall₂_eq_eq_eq] at hfunctions
    rw [unlabelNode, unlabelNode, hfunctions]

theorem Rebuilt.unlabel_eq {t u : Term} {d : Nat}
    (h : Rebuilt (fun c _ w => c.unlabel = w.unlabel) t d u) : t.unlabel = u.unlabel := by
  rw [Term.unlabel_eq t d, Term.unlabel_eq u d]
  exact (h.map fun _ _ _ hw => hw).unlabelNode_eq

end Rebuilt

section Flatten

def unlabelParam (p : Param Term) : Param Term := ⟨p.name, p.type.unlabel⟩

theorem unlabel_product (ps : List (Param Term)) (r : Term) :
    (Term.product ps r).unlabel = .product (ps.map unlabelParam) r.unlabel := by
  rw [unlabel_eq _ 0, mapChildren, mapParamTypes_const]
  rfl

theorem unlabel_lambda (ps : List (Param Term)) (b : Term) :
    (Term.lambda ps b).unlabel = .lambda (ps.map unlabelParam) b.unlabel := by
  rw [unlabel_eq _ 0, mapChildren, mapParamTypes_const]
  rfl

theorem unlabel_apply (f : Term) (as : Arguments Term) :
    (Term.apply f as).unlabel = .apply f.unlabel (as.map unlabel) := unlabel_eq _ 0

theorem kind_unlabel (t : Term) : t.unlabel.kind = t.kind := by
  rw [unlabel_eq t 0]
  cases t <;> rfl

/-- Labels play no part in merging. -/
theorem flatten?_unlabel (t : Term) : t.unlabel.flatten? = t.flatten?.map unlabel := by
  cases t with
  | product ps r =>
    rcases r.eq_product_or_kind_ne with ⟨qs, s, rfl⟩ | hr
    · simp [unlabel_product, flatten?]
    · have hr' : r.unlabel.kind ≠ .product := by rwa [kind_unlabel]
      rw [unlabel_product, flatten?_product_of_ne hr, flatten?_product_of_ne hr']
      rfl
  | lambda ps b =>
    rcases b.eq_lambda_or_kind_ne with ⟨qs, c, rfl⟩ | hb
    · simp [unlabel_lambda, flatten?]
    · have hb' : b.unlabel.kind ≠ .lambda := by rwa [kind_unlabel]
      rw [unlabel_lambda, flatten?_lambda_of_ne hb, flatten?_lambda_of_ne hb']
      rfl
  | apply f as =>
    rcases f.eq_apply_or_kind_ne with ⟨g, bs, rfl⟩ | hf
    · simp [unlabel_apply, flatten?]
    · have hf' : f.unlabel.kind ≠ .apply := by rwa [kind_unlabel]
      rw [unlabel_apply, flatten?_apply_of_ne hf, flatten?_apply_of_ne hf']
      rfl
  | _ => rfl

end Flatten

/-- The bundle that a node selects from, and the number of binders around the node. -/
def selection? (c : Term × Nat) : Option (Bundle Term × Nat) := c.1.asFix?.map fun s => (s.2, c.2)

/-- The selections of a term, outer ones first and in the order in which `children` lists what is
right below a node. -/
def selections (t : Term) (d : Nat) : List (Bundle Term × Nat) := (t.nodes d).filterMap selection?

theorem selections_eq (t : Term) (d : Nat) :
    t.selections d =
      (selection? (t, d)).toList ++ (t.children d).flatMap fun c => c.1.selections c.2 := by
  rw [selections, nodes_eq, List.filterMap_cons, List.filterMap_flatMap]
  cases selection? (t, d) <;> rfl

/-- The node that is found by going down from a term, each time to the child at an index, and the
number of binders around it. -/
def at? : List Nat → Term → Nat → Option (Term × Nat)
  | [], t, d => some (t, d)
  | k :: p, t, d => (t.children d)[k]?.bind fun c => at? p c.1 c.2

/-- The selection that is found by going down from a term. -/
def selectionAt? (t : Term) (p : List Nat) : Option (Bundle Term × Nat) :=
  (at? p t 0).bind selection?

theorem mem_nodes_of_at? {p : List Nat} {t : Term} {d : Nat} {c : Term × Nat}
    (h : at? p t d = some c) : c ∈ t.nodes d := by
  induction p generalizing t d with
  | nil =>
    obtain rfl := Option.some.inj h
    rw [nodes_eq]
    exact List.mem_cons_self
  | cons k p ih =>
    obtain ⟨e, he, hc⟩ := Option.bind_eq_some_iff.1 h
    rw [nodes_eq, List.mem_cons, List.mem_flatMap]
    exact .inr ⟨e, List.mem_of_getElem? he, ih hc⟩

theorem mem_selections_of_selectionAt? {t : Term} {p : List Nat} {s : Bundle Term × Nat}
    (h : t.selectionAt? p = some s) : s ∈ t.selections 0 := by
  obtain ⟨c, hc, hs⟩ := Option.bind_eq_some_iff.1 h
  exact List.mem_filterMap.2 ⟨c, mem_nodes_of_at? hc, hs⟩

/-- Selections whose bundles have one label select from one bundle. -/
def Coherent (t : Term) : Prop :=
  ∀ s ∈ t.selections 0, ∀ s' ∈ t.selections 0, ∀ l, s.1.label = some l → s'.1.label = some l →
    s.1 = s'.1

section FlattenNode

/-- A merged node has the selections of the nodes it is made of. -/
theorem selections_flatten? {t u : Term} (h : t.flatten? = some u) (d : Nat) :
    u.selections d = t.selections d := by
  cases t with
  | product ps r =>
    rcases r.eq_product_or_kind_ne with ⟨qs, s, rfl⟩ | hr
    · obtain rfl := Option.some.inj h
      rw [selections_eq, selections_eq (.product ps _)]
      simp [children, selection?, asFix?, paramTypes_append, Nat.add_assoc,
        selections_eq (.product qs s)]
    · rw [flatten?_product_of_ne hr] at h
      cases h
  | lambda ps b =>
    rcases b.eq_lambda_or_kind_ne with ⟨qs, c, rfl⟩ | hb
    · obtain rfl := Option.some.inj h
      rw [selections_eq, selections_eq (.lambda ps _)]
      simp [children, selection?, asFix?, paramTypes_append, Nat.add_assoc,
        selections_eq (.lambda qs c)]
    · rw [flatten?_lambda_of_ne hb] at h
      cases h
  | apply f as =>
    rcases f.eq_apply_or_kind_ne with ⟨g, bs, rfl⟩ | hf
    · obtain rfl := Option.some.inj h
      rw [selections_eq, selections_eq (.apply _ as)]
      simp [children, selection?, asFix?, List.flatMap_map, selections_eq (.apply g bs)]
    · rw [flatten?_apply_of_ne hf] at h
      cases h
  | _ => cases h

end FlattenNode

end InductiveTerms.Term
