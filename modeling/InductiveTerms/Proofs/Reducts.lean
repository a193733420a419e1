import InductiveTerms.Proofs.Rewriting
import InductiveTerms.Proofs.Sharing

/-!
What a term comes to by contracting functions that are applied, any number of times and anywhere
in it (`Reduces`). The contractions are those of the reduction at the head, whatever they do to
indices. Rewriting under a plan only ever goes forward: what it leaves of a term is reached from the
term with the binding of the plan put for its variables (`Plan.visited_reduces`). Nothing is asked
for but that no index leaves its range where something is put for a variable.
-/
namespace InductiveTerms
open Term Traversal

/-- Contraction of applied functions, zero or more times and anywhere in a term. Display does not
count. -/
inductive Reduces : Term → Term → Prop
  | same {t u : Term} : t.bare = u.bare → Reduces t u
  | contract {ps : List (Param Term)} {b : Term} {as : Arguments Term} :
      Reduces (.apply (.lambda ps b) as) (beta ps b as.toList)
  | trans {t u v : Term} : Reduces t u → Reduces u v → Reduces t v
  /-- Two nodes of one layout, child by child. -/
  | node {t u : Term} {d : Nat} : Rebuilt (fun _ _ _ => True) t d u →
      List.Forall₂ Reduces ((t.children d).map (·.1)) ((u.children d).map (·.1)) → Reduces t u

namespace Reduces

theorem rebuilt {t u : Term} {d : Nat} (h : Rebuilt (fun c _ w => Reduces c w) t d u) :
    Reduces t u := by
  refine .node (h.imp fun _ _ _ _ => trivial) ?_
  rw [List.forall₂_map_left_iff, List.forall₂_map_right_iff]
  exact h.children.imp fun _ _ hc => hc.2

theorem of_reduceHead {steps : Nat} {t u : Term} (h : t.reduceHead steps = some u) :
    Reduces t u := by
  induction steps generalizing t with
  | zero =>
    rcases isHeadRedex_cases t with ⟨ps, b, as, rfl⟩ | hredex
    · cases h
    · rw [reduceHead_of_not_isHeadRedex hredex] at h
      obtain rfl := Option.some.inj h
      exact .same rfl
  | succ steps ih =>
    rcases isHeadRedex_cases t with ⟨ps, b, as, rfl⟩ | hredex
    · exact .trans .contract (ih h)
    · rw [reduceHead_of_not_isHeadRedex hredex] at h
      obtain rfl := Option.some.inj h
      exact .same rfl

theorem productOver {d : Nat} {ps ps' : List (Param Term)} {r r' : Term}
    (hps : RebuiltParams (fun c _ w => Reduces c w) ps d ps') (hr : Reduces r r') :
    Reduces (Term.productOver ps r) (Term.productOver ps' r') := by
  cases hps with
  | nil => exact hr
  | cons ht hps => exact .rebuilt (.product (.cons ht hps) hr)

end Reduces

theorem Specialization.Plan.Exact.replyExact_of_mem {plan : Plan} {t : Term} {d : Nat}
    (h : plan.Exact t d) :
    ∀ o ∈ t.occurrences d, plan.ReplyExact (.var "" o.1) o.2 := by
  induction h with
  | @node t d _ hreply ih =>
    intro o ho
    rcases t.eq_var_or_asVar?_eq_none with ⟨x, i, rfl⟩ | ht
    · obtain rfl := List.mem_singleton.1 ho
      exact hreply
    · obtain ⟨c, hc, ho⟩ := (mem_occurrences_iff ht).1 ho
      exact ih c hc o ho

/-- What rewriting leaves of a term is reached from the term with the binding of the plan put for
its variables. -/
theorem Specialization.Plan.visited_reduces {plan : Plan} (t : Term) :
    ∀ {d w}, (∀ o ∈ t.occurrences d, plan.ReplyExact (.var "" o.1) o.2) →
      Visited plan.visitor t d w → Reduces (mapVars (bindVar plan.binding) t d) w := by
  induction t using induct_children with
  | node t ih =>
    intro d w hexact hleft
    rcases t.eq_var_or_asVar?_eq_none with ⟨x, i, rfl⟩ | ht
    · exact .same ((visited_var hleft).bare_eq (hexact (i, d) (List.mem_singleton.2 rfl))).symm
    obtain ⟨u, hu, hreduce⟩ := visited_node ht hleft
    have hnode : Rebuilt (fun c _ w => Reduces c w)
        (t.mapChildren (mapVars (bindVar plan.binding)) d) d (u.mapChildren (fun w _ => w) d) :=
      hu.map fun c hc v hv =>
        ih d c hc (fun o ho => hexact o ((mem_occurrences_iff ht).2 ⟨c, hc, ho⟩)) hv
    rw [mapChildren_id, ← mapVars_eq ht] at hnode
    exact .trans (.rebuilt hnode) (.of_reduceHead hreduce)

end InductiveTerms
