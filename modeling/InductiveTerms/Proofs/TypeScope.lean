import InductiveTerms.Proofs.Below
import InductiveTerms.Proofs.Stack
import InductiveTerms.Proofs.TypingRules

/-!
The scope of the types that are found. In a context of `n` locals the type of a term refers to
variables below `n` only (`check_below`), as long as the same holds of the signatures of selected
functions that the rules pass on: these are taken as they are stored, under the binders of their
bundle, and where they mention them the type is open (`check_open`).
-/
namespace InductiveTerms
open Term

/-- Contexts built from globals with closed types by adding entries whose types refer to what was
added before them, or to `s` variables more at most. -/
inductive Context.WellScoped (s : Nat) : Context → Prop
  | ofGlobals {globals : Globals} :
      (∀ x T, globals.typeOf? x = some T → T.Below 0) → WellScoped s (.ofGlobals globals)
  | push {ctx : Context} {x : Option String} {type : Term} :
      WellScoped s ctx → type.Below (ctx.size + s) → WellScoped s (ctx.push x type)

namespace Context
variable {s : Nat} {ctx : Context}

theorem WellScoped.locals_wellFormed (h : ctx.WellScoped s) : ctx.locals.WellFormed := by
  induction h with
  | ofGlobals => exact Stack.wellFormed_empty
  | push _ _ ih => exact ih.push _

theorem WellScoped.globalType (h : ctx.WellScoped s) {x : String} {T : Term}
    (hT : ctx.globalType? x = some T) : T.Below 0 := by
  induction h with
  | ofGlobals hclosed => exact hclosed x T hT
  | push _ _ ih => exact ih hT

theorem WellScoped.entry (h : ctx.WellScoped s) {i : Nat} {e : LocalEntry}
    (he : ctx.locals.toList[i]? = some e) :
    i < ctx.size ∧ e.type.Below (ctx.size - (i + 1) + s) := by
  induction h generalizing i with
  | ofGlobals => simp [Context.ofGlobals, Stack.empty, Stack.toList] at he
  | @push ctx x type _ htype ih =>
    simp only [Context.push, Stack.toList_push] at he
    rw [size_push]
    cases i with
    | zero =>
      obtain rfl := Option.some.inj he
      exact ⟨Nat.succ_pos _, htype⟩
    | succ i =>
      obtain ⟨hi, hbelow⟩ := ih he
      exact ⟨Nat.succ_lt_succ hi, by rwa [Nat.add_sub_add_right]⟩

theorem WellScoped.localType (h : ctx.WellScoped s) {i : Nat} {T : Term}
    (hT : ctx.localType i = .ok T) : T.Below (ctx.size + s) := by
  cases he : ctx.locals.toList[i]? with
  | none =>
    simp [Context.localType, localTypeM, Stack.get, h.locals_wellFormed.get?_eq_getElem?, he] at hT
  | some e =>
    have hrun : ctx.localType i = .ok (e.type.shift 0 (i + 1 : Nat)) := by
      simp [Context.localType, localTypeM, Stack.get, h.locals_wellFormed.get?_eq_getElem?, he]
      rfl
    have hshift := Except.ok.inj (hrun.symm.trans hT)
    obtain ⟨hi, hbelow⟩ := h.entry he
    have hsize : ctx.size - (i + 1) + s + (i + 1) = ctx.size + s := by omega
    rw [← hshift, ← hsize]
    exact hbelow.shift (i + 1)

theorem WellScoped.pushParams (h : ctx.WellScoped s) {ps : List (Param Term)}
    (hps : ParamsBelow (ctx.size + s) ps) : (ctx.pushParams ps).WellScoped s := by
  induction ps generalizing ctx with
  | nil => exact h
  | cons p ps ih =>
    refine ih (h.push hps.1) ?_
    rw [size_push, Nat.add_right_comm]
    exact hps.2

end Context

namespace Term

theorem ParamsBelow.mono {n k : Nat} {ps : List (Param Term)} (h : ParamsBelow n ps)
    (hle : n ≤ k) : ParamsBelow k ps := by
  induction ps generalizing n k with
  | nil => trivial
  | cons p ps ih => exact ⟨h.1.mono hle, ih h.2 (Nat.succ_le_succ hle)⟩

theorem ParamsBelow.drop {n : Nat} {ps : List (Param Term)} (h : ParamsBelow n ps) (k : Nat) :
    ParamsBelow (n + min k ps.length) (ps.drop k) := by
  have happend := List.take_append_drop k ps
  rw [← happend, paramsBelow_append, List.length_take] at h
  exact h.2

/-- Whether the signatures that the rules pass on to the type of a term with `n` variables in scope
refer to those, or to `s` variables more at most. -/
inductive SignaturesBelow (s : Nat) : Term → Nat → Prop
  | var {x : String} {i n : Nat} : SignaturesBelow s (.var x i) n
  | global {x : String} {n : Nat} : SignaturesBelow s (.global x) n
  | univ {u : Universe} {n : Nat} : SignaturesBelow s (.univ u) n
  | productNil {r : Term} {n : Nat} :
      SignaturesBelow s r n → SignaturesBelow s (.product [] r) n
  | productCons {p : Param Term} {ps : List (Param Term)} {r : Term} {n : Nat} :
      SignaturesBelow s p.type n → SignaturesBelow s (.product (p :: ps) r) n
  | lambda {ps : List (Param Term)} {b : Term} {n : Nat} :
      SignaturesBelow s b (n + ps.length) → SignaturesBelow s (.lambda ps b) n
  | letIn {x : Option String} {v t b : Term} {n : Nat} :
      SignaturesBelow s v n → SignaturesBelow s b (n + 1) → SignaturesBelow s (.letIn x v t b) n
  | apply {f : Term} {as : Arguments Term} {n : Nat} :
      SignaturesBelow s f n → SignaturesBelow s (.apply f as) n
  | cast {t ty : Term} {k : CastKind} {n : Nat} :
      SignaturesBelow s t n → SignaturesBelow s (.cast t k ty) n
  | caseOf {p sc : Term} {bs : List (Branch Term)} {n : Nat} :
      SignaturesBelow s sc n → SignaturesBelow s (.caseOf p sc bs) n
  | fix {i n : Nat} {b : Bundle Term} :
      (∀ f ∈ b.function? i, (productOver f.params f.result).Below (n + s)) →
        SignaturesBelow s (.fix i b) n

end Term

/-- The type of a term in scope is in scope, up to what the signatures passed on exceed it by. -/
theorem check_below {s : Nat} {ctx : Context} {t T : Term} (hctx : ctx.WellScoped s)
    (ht : t.Below ctx.size) (hsig : t.SignaturesBelow s ctx.size) (h : t.check ctx = .ok T) :
    T.Below (ctx.size + s) := by
  generalize hn : ctx.size = n at ht hsig ⊢
  induction hsig generalizing ctx T with
  | var => exact hn ▸ hctx.localType (check_var h)
  | global => exact (hctx.globalType (check_global h)).mono (Nat.zero_le _)
  | univ =>
    rw [check_univ h]
    simp [below_iff, occurrences]
  | productNil _ ih => exact ih hctx (check_product_nil h) hn (below_product.1 ht).2
  | productCons _ ih =>
    rcases check_product_cons h with rfl | hfirst
    · simp [below_iff, occurrences]
    · exact ih hctx hfirst hn (below_product.1 ht).1.1
  | @lambda ps b n _ ih =>
    obtain ⟨hps, hb⟩ := below_lambda.1 ht
    obtain ⟨B, hB, rfl⟩ := check_lambda h
    have hps' : ParamsBelow (n + s) ps := hps.mono (Nat.le_add_right n s)
    have hbelow := ih (hctx.pushParams (hn ▸ hps')) hB (by rw [Context.size_pushParams, hn]) hb
    rw [Nat.add_right_comm] at hbelow
    exact below_productOver.2 ⟨hps', hbelow⟩
  | @letIn x v t b n _ _ ihv ihb =>
    obtain ⟨hv, _, hb⟩ := below_letIn.1 ht
    obtain ⟨V, B, hV, hB, rfl⟩ := check_letIn h
    have hbelow := ihb (hctx.push (hn ▸ ihv hctx hV hn hv)) hB (by rw [Context.size_push, hn]) hb
    rw [Nat.add_right_comm] at hbelow
    exact hbelow.subst (by simpa using hv.mono (Nat.le_add_right n s))
  | @apply f as n _ ih =>
    obtain ⟨hf, has⟩ := below_apply.1 ht
    obtain ⟨F, hF, hle, rfl⟩ := check_apply h
    obtain ⟨hparams, hresult⟩ := (ih hctx hF hn hf).unfoldProducts
    have hdrop := hparams.drop as.toList.length
    rw [Nat.min_eq_left hle] at hdrop
    refine Below.subst ?_ fun a ha => (has a (List.mem_reverse.1 ha)).mono (Nat.le_add_right n s)
    rw [List.length_reverse]
    refine below_productOver.2 ⟨hdrop, ?_⟩
    rwa [List.length_drop, Nat.add_assoc, Nat.add_sub_cancel' hle]
  | cast _ ih => exact ih hctx (check_cast h) hn (below_cast.1 ht).1
  | @caseOf p sc bs n _ ih =>
    obtain ⟨S, hS, rfl⟩ := check_caseOf h
    have hp : p.Below (n + s + 1) := ht.motive.mono (by omega)
    exact hp.subst (by simpa using ih hctx hS hn ht.scrutinee)
  | fix hf =>
    obtain ⟨f, hfun, rfl⟩ := check_fix h
    exact hf f hfun

namespace TypeScope

/-- A number, a family over it and a function into the family. -/
def numberGlobals : Globals :=
  .ofTypes fun x => if x = "nat" then some (.univ .set)
    else if x = "O" then some (.global "nat") else none

def familyContext : Context :=
  ((Context.ofGlobals numberGlobals).push (some "A") (.univ .set)).push (some "f")
    (.product [⟨none, .global "nat"⟩] (.var "A" 1))

/-- `λ (x : A). let y := (fix h (z : nat) : nat := h z) O in f y`. -/
def viaFixpoint : Term :=
  .lambda [⟨some "x", .var "A" 1⟩]
    (.letIn (some "y")
      (.applyTo (.fix 0 ⟨none, [⟨"h", [⟨some "z", .global "nat"⟩], .global "nat",
        .applyTo (.var "h" 1) [.var "z" 0]⟩]⟩) [.global "O"])
      (.global "nat") (.applyTo (.var "f" 2) [.var "y" 0]))

theorem check_below_viaFixpoint :
    familyContext.WellScoped 0 ∧ viaFixpoint.Below familyContext.size ∧
      viaFixpoint.SignaturesBelow 0 familyContext.size ∧
      ∃ T, viaFixpoint.check familyContext = .ok T ∧ T.Below (familyContext.size + 0) := by
  have hctx : familyContext.WellScoped 0 := by
    refine .push (.push (.ofGlobals fun x T hT => ?_) (by decide)) (by decide)
    simp only [numberGlobals, Globals.ofTypes] at hT
    split at hT
    · obtain rfl := Option.some.inj hT
      decide
    · split at hT
      · obtain rfl := Option.some.inj hT
        decide
      · cases hT
  have ht : viaFixpoint.Below familyContext.size := by decide
  have hsig : viaFixpoint.SignaturesBelow 0 familyContext.size :=
    .lambda (.letIn (.apply (.fix (by decide))) (.apply .var))
  have hcheck : viaFixpoint.check familyContext =
      .ok (.product [⟨some "x", .var "A" 1⟩] (.var "A" 2)) := by rfl
  exact ⟨hctx, ht, hsig, _, hcheck, check_below hctx ht hsig hcheck⟩

/-- `λ (A : Set). fix f (x : A) : A := x`, which is closed. -/
def openSignature : Term :=
  .lambda [⟨some "A", .univ .set⟩]
    (.fix 0 ⟨none, [⟨"f", [⟨some "x", .var "A" 1⟩], .var "A" 2, .var "x" 0⟩]⟩)

/-- Without regard to signatures not even a closed term gets a closed type. -/
theorem check_open :
    ¬ ∀ (ctx : Context) (t T : Term), ctx.WellScoped 0 → t.Below ctx.size → t.check ctx = .ok T →
      T.Below ctx.size := by
  intro h
  have hctx : Context.empty.WellScoped 0 := .ofGlobals fun _ _ hT => nomatch hT
  have hcheck : openSignature.check .empty = .ok (.product [⟨some "A", .univ .set⟩]
      (.product [⟨some "x", .var "A" 1⟩] (.var "A" 2))) := by rfl
  exact absurd (h .empty openSignature _ hctx (by decide) hcheck) (by decide)

end TypeScope
end InductiveTerms
