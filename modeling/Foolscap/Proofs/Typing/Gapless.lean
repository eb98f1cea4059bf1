import Foolscap.Proofs.Assembly.Heights
import Foolscap.Proofs.Scope.Located
import Foolscap.Proofs.Typing.Inversion

/-!
# Well-typed expressions have code

An expression that has a type lacks nothing that code generation needs.
-/

namespace Foolscap

variable {h : Hierarchy} {s : Scopes}

mutual

/-- An expression that has a type has no gap. -/
theorem Expr.gap?_of_typeOf :
    ∀ (e : Expr) {t : Ty}, (e.bind s).typeOf h = .ok t → (e.bind s).gap? = none
  | .missing, _, ht => by
    rw [Expr.bind, Expr.typeOf] at ht
    cases ht
  | .binary _ _ l r, _, ht => by
    rw [Expr.bind] at ht ⊢
    obtain ⟨lt, rt, hl, hr, -⟩ := Expr.typeOf_binary ht
    exact Expr.gap?_binary.mpr ⟨l.gap?_of_typeOf hl, r.gap?_of_typeOf hr⟩
  | .not _ e, _, ht => by
    rw [Expr.bind] at ht ⊢
    obtain ⟨-, et, he⟩ := Expr.typeOf_not ht
    rw [Expr.gap?]
    exact e.gap?_of_typeOf he
  | .cond _ c y e, _, ht => by
    rw [Expr.bind] at ht ⊢
    obtain ⟨ct, yt, et, hc, hy, he, -⟩ := Expr.typeOf_cond ht
    exact Expr.gap?_cond.mpr
      ⟨c.gap?_of_typeOf hc, e.gap?_of_typeOf he, y.gap?_of_typeOf hy⟩
  | .print _ e, _, ht => by
    rw [Expr.bind] at ht ⊢
    rw [Expr.typeOf] at ht
    rw [Expr.gap?]
    exact e.gap?_of_typeOf ht
  | .int _ _, _, _ | .bool _ _, _, _ | .null _, _, _ => by rw [Expr.bind, Expr.gap?]
  | .id _ _ _, _, ht => by
    rw [Expr.bind] at ht ⊢
    obtain ⟨u, hu, -⟩ := Expr.typeOf_id ht
    exact Expr.gap?_id.mpr ⟨u, hu⟩
  | .call _ _ es _, _, ht => by
    rw [Expr.bind] at ht ⊢
    obtain ⟨u, ps, hu, -, hps⟩ := Expr.typeOf_call ht
    exact Expr.gap?_call.mpr ⟨Typing.Conform.gap? es hps, u, hu⟩
  | .new _ _ es _, _, ht => by
    rw [Expr.bind] at ht ⊢
    obtain ⟨e, origin, fs, ms, he, -, -, hfs⟩ := Expr.typeOf_new ht
    exact Expr.gap?_new.mpr ⟨Typing.Conform.gap? es hfs, e, he⟩
  | .send _ _ _ es _ _, _, ht => by
    rw [Expr.bind] at ht ⊢
    obtain ⟨e, ps, he, -, hps⟩ := Expr.typeOf_send ht
    -- A target is found only where the receiver is.
    obtain ⟨u, cls, info, -, hu, -⟩ := Scopes.receive_target he
    exact Expr.gap?_send.mpr ⟨Typing.Conform.gap? es hps, ⟨u, hu⟩, e, he⟩

/-- Expressions that have types have no gaps. -/
theorem Typing.Conform.gap? : ∀ (es : List Expr) {ts : List Ty},
    Typing.Conform h (bindAll s es) ts → ∀ e ∈ bindAll s es, e.gap? = none
  | [], _, _, e, he => by
    rw [bindAll] at he
    cases he
  | e :: es, ts, hts, e', he' => by
    rw [bindAll] at hts he'
    cases hts with
    | cons ht hts =>
      obtain ⟨got, hgot, -⟩ := ht
      rcases List.mem_cons.mp he' with rfl | he'
      · exact e.gap?_of_typeOf hgot
      · exact Typing.Conform.gap? es hts e' he'

end

end Foolscap
