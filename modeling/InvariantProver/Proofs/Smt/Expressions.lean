import InvariantProver.Proofs.Smt.Meaning
import InvariantProver.Smt.Formula

namespace InvariantProver

namespace Head

def apply {α : Type} (T : Smt.Theory α) (head : Head) (args : List α) : Option α :=
  match head, args with
  | ite, [condition, onTrue, onFalse] => T.choice condition onTrue onFalse
  | not, [a] => T.unary head.text a
  | toReal, [a] => T.unary head.text a
  | sub, [a] => T.unary head.text a
  | and, args => args.foldlM (T.binary head.text) (T.constant (.bool true))
  | or, args => args.foldlM (T.binary head.text) (T.constant (.bool false))
  | head, [a, b] => T.binary head.text a b
  | _, _ => none

end Head

namespace Formula

section

variable {α : Type} (T : Smt.Theory α) (symbols : String → Ty → Option α)

def read : Formula → Option α :=
  fold (fun value => some (T.constant value)) symbols fun head results => do
    head.apply T (← results.mapM id)

def ReadAs (es : List Formula) (as : List α) : Prop :=
  List.Forall₂ (fun e a => read T symbols e = some a) es as

variable {T symbols} {es : List Formula} {as : List α} {v : α} {head : Head}

theorem read_node (h : ReadAs T symbols es as) : (node head es).read T symbols = head.apply T as := by
  have hresults : (es.map (read T symbols)).mapM id = some as := by
    induction h with
    | nil => rfl
    | cons he _ ih => simp [he, ih]
  rw [read, fold, foldArgs_eq_map]
  change ((es.map (read T symbols)).mapM id >>= _) = _
  rw [hresults]
  rfl

theorem read_pair (hhead : ∀ a b, head.apply T [a, b] = T.binary head.text a b) {e f : Formula} {a b : α}
    (he : e.read T symbols = some a) (hf : f.read T symbols = some b) :
    (node head [e, f]).read T symbols = T.binary head.text a b :=
  (read_node (.cons he (.cons hf .nil))).trans (hhead a b)

theorem read_joined (hhead : ∀ a b, head.apply T [a, b] = T.binary head.text a b) {e : Formula} {a : α}
    (he : e.read T symbols = some a) (h : ReadAs T symbols es as)
    (hv : as.foldlM (T.binary head.text) a = some v) :
    (joined head (e :: es)).read T symbols = some v := by
  change (es.foldl (fun e f => node head [e, f]) e).read T symbols = some v
  induction h generalizing e a with
  | nil => exact he.trans hv
  | cons hf _ ih =>
    rw [List.foldlM_cons] at hv
    obtain ⟨b, hb, hv⟩ := Option.bind_eq_some_iff.mp hv
    exact ih ((read_pair hhead he hf).trans hb) hv

theorem read_implication (h : ReadAs T symbols es as) (hv : T.right "=>" as = some v) :
    (implication es).read T symbols = some v := by
  induction h generalizing v with
  | nil => cases hv
  | cons he hes ih =>
    cases hes with
    | nil => exact he.trans hv
    | cons hf hes =>
      obtain ⟨b, hb, hv⟩ := Option.bind_eq_some_iff.mp hv
      exact (read_pair (fun _ _ => rfl) he (ih hb)).trans hv

theorem links_eq_zipWith (rel : Formula → Formula → Formula) (es : List Formula) :
    links rel es = List.zipWith rel es es.tail := by
  induction es with
  | nil => rfl
  | cons e es ih =>
    cases es with
    | nil => rfl
    | cons f es => exact congrArg (rel e f :: ·) ih

theorem readAs_links {rel : Formula → Formula → Formula} {g : α → α → α}
    (hrel : ∀ e f a b, a ∈ as → b ∈ as → e.read T symbols = some a → f.read T symbols = some b →
      (rel e f).read T symbols = some (g a b)) (h : ReadAs T symbols es as) :
    ReadAs T symbols (links rel es) (List.zipWith g as as.tail) := by
  rw [links_eq_zipWith]
  induction h with
  | nil => exact .nil
  | @cons e a es as he hes ih =>
    have hrest := ih fun e f a b ha hb =>
      hrel e f a b (List.mem_cons_of_mem _ ha) (List.mem_cons_of_mem _ hb)
    cases hes with
    | nil => exact .nil
    | cons hf _ => exact .cons (hrel _ _ _ _ (by simp) (by simp) he hf) hrest

theorem read_chain {rel : Formula → Formula → Formula} {g : α → α → α}
    (hrel : ∀ e f a b, a ∈ as → b ∈ as → e.read T symbols = some a → f.read T symbols = some b →
      (rel e f).read T symbols = some (g a b)) (h : ReadAs T symbols es as)
    (hone : ∀ a b, as = [a, b] → g a b = v)
    (hmore : Head.and.apply T (List.zipWith g as as.tail) = some v) :
    (chain rel es).read T symbols = some v := by
  have hlinks := readAs_links hrel h
  unfold chain
  split
  · next only honly =>
    rw [honly] at hlinks
    match as, hlinks with
    | [a, b], .cons he .nil => rw [he, hone a b rfl]
  · exact (read_node hlinks).trans hmore

theorem read_compare {e f : Formula} {a b c : α} (hhead : head ∈ [.eq, .ge, .le, .gt, .lt])
    (he : e.read T symbols = some a) (hf : f.read T symbols = some b)
    (hc : T.binary head.text a b = some c) (hflipped : T.binary head.flipped.text b a = some c) :
    (compare head e f).read T symbols = some c := by
  have hpair : ∀ h ∈ [Head.eq, .ge, .le, .gt, .lt], ∀ x y : α,
      h.apply T [x, y] = T.binary h.text x y := by
    simp [Head.apply]
  have hflip : head.flipped ∈ [Head.eq, .ge, .le, .gt, .lt] := by
    cases head <;> first | decide | simp at hhead
  unfold compare
  split
  · exact (read_pair (hpair _ hflip) hf he).trans hflipped
  · exact (read_pair (hpair _ hhead) he hf).trans hc

end

/-! ### Sorts -/

section

open Smt

variable {symbols : String → Ty → Option Ty} {es : List Formula}

theorem foldlM_replicate {f : String} {t : Ty} (h : sorts.binary f t t = some t) (n : Nat) :
    (List.replicate n t).foldlM (sorts.binary f) t = some t := by
  induction n with
  | zero => rfl
  | succ n ih =>
    rw [List.replicate_succ, List.foldlM_cons, h]
    exact ih

theorem zipWith_replicate {α β : Type} (g : α → α → β) (a : α) (n : Nat) :
    List.zipWith g (.replicate (n + 1) a) (List.replicate (n + 1) a).tail = .replicate n (g a a) := by
  rw [List.replicate_succ, List.tail_cons]
  induction n with
  | zero => rfl
  | succ n ih =>
    rw [List.replicate_succ, List.zipWith_cons_cons, ih]
    rfl

theorem sorts_chain {head : Head} {t : Ty} {n : Nat} (hn : 2 ≤ n)
    (hhead : head ∈ [.eq, .ge, .le, .gt, .lt]) (hne : head = .eq ∨ t ≠ .bool)
    (h : ReadAs sorts symbols es (.replicate n t)) :
    (chain (compare head) es).read sorts symbols = some .bool := by
  obtain ⟨m, rfl⟩ := Nat.exists_eq_add_of_le' hn
  have hbinary : sorts.binary head.text t t = some .bool ∧
      sorts.binary head.flipped.text t t = some .bool := by
    cases head <;> cases t <;> first | exact ⟨rfl, rfl⟩ | simp at hhead hne
  refine read_chain (g := fun _ _ => .bool) ?_ h (fun _ _ _ => rfl) ?_
  · intro e f a b ha hb he hf
    obtain rfl := List.eq_of_mem_replicate ha
    obtain rfl := List.eq_of_mem_replicate hb
    exact read_compare hhead he hf hbinary.1 hbinary.2
  · rw [zipWith_replicate]
    exact foldlM_replicate rfl (m + 1)

theorem sorts_joined {head : Head} {t : Ty} {n : Nat} (hn : 1 ≤ n) (hhead : head ∈ [.add, .sub, .mul])
    (ht : t ≠ .bool) (h : ReadAs sorts symbols es (.replicate n t)) :
    (joined head es).read sorts symbols = some t := by
  obtain ⟨m, rfl⟩ := Nat.exists_eq_add_of_le' hn
  have hbinary : sorts.binary head.text t t = some t := by
    cases head <;> cases t <;> first | rfl | exact absurd rfl ht | simp at hhead
  cases h with
  | cons he hes =>
    refine read_joined ?_ he hes (foldlM_replicate hbinary m)
    cases head <;> first | exact fun _ _ => rfl | simp at hhead

theorem sorts_difference {o : Option Ty} {t : Ty} {n : Nat} (hn : 1 ≤ n) (ht : t ≠ .bool)
    (hes : ReadAs sorts symbols es (.replicate n t)) :
    (ofApp .sub o es).read sorts symbols = some t := by
  obtain ⟨m, rfl⟩ := Nat.exists_eq_add_of_le' hn
  cases m with
  | zero =>
    obtain _ | ⟨he, _ | _⟩ := hes
    refine (read_node (.cons he .nil)).trans ?_
    cases t with
    | bool => exact absurd rfl ht
    | int | rat => rfl
  | succ m =>
    obtain _ | ⟨he, _ | ⟨hf, hes⟩⟩ := hes
    exact sorts_joined hn (by decide) ht (.cons he (.cons hf hes))

theorem sorts_quotient {t : Ty} (ht : t ≠ .bool) (hes : ReadAs sorts symbols es [t, t]) :
    (ofApp .div (some t) es).read sorts symbols = some .rat := by
  obtain _ | ⟨he, _ | ⟨hf, _ | _⟩⟩ := hes
  cases t with
  | bool => exact absurd rfl ht
  | int =>
    have hreal : ∀ {e : Formula}, e.read sorts symbols = some .int →
        (node .toReal [e]).read sorts symbols = some .rat := fun he => read_node (.cons he .nil)
    exact read_node (.cons (hreal he) (.cons (hreal hf) .nil))
  | rat => exact read_node (.cons he (.cons hf .nil))

theorem sorts_ofApp {op : Op} {tys : List Ty} {t : Ty} (h : op.Takes tys t)
    (hes : ReadAs sorts symbols es tys) : (ofApp op tys.head? es).read sorts symbols = some t := by
  cases h with
  | choice t =>
    refine (read_node hes).trans ?_
    simp [Head.apply, sorts]
  | negation => exact read_node hes
  | junction hop hn =>
    rcases hop with rfl | rfl
    · exact (read_node hes).trans (foldlM_replicate rfl _)
    · exact (read_node hes).trans (foldlM_replicate rfl _)
  | implication hn =>
    obtain ⟨m, rfl⟩ := Nat.exists_eq_add_of_le' hn
    refine read_implication hes ?_
    rw [List.replicate_succ, List.replicate_succ, ← Theory.apply_right rfl]
    exact sorts_right rfl rfl m
  | equality t hn => exact sorts_chain hn (by decide) (.inl rfl) hes
  | relation hop ht hn =>
    cases op with
    | ge | le | gt | lt => exact sorts_chain hn (by decide) (.inr ht) hes
    | _ => cases hop
  | sum hop ht hn =>
    rcases hop with rfl | rfl
    · exact sorts_joined hn (by decide) ht hes
    · exact sorts_difference hn ht hes
  | product ht hn => exact sorts_joined (by omega) (by decide) ht hes
  | quotient ht => exact sorts_quotient ht hes
  | whole hop =>
    rcases hop with rfl | rfl
    · exact read_node hes
    · exact read_node hes

theorem read_ofTerm_app {α : Type} {T : Theory α} {symbols : String → Ty → Option α} (op : Op)
    (args : List Term) : (ofTerm (.app op args)).read T symbols =
      (ofApp op (args.map Term.ty).head? (args.map ofTerm)).read T symbols := by
  rw [ofTerm, Term.fold_app, List.head?_map]

theorem sorts_ofTerm {t : Term} (h : t.isTyped = true) :
    (ofTerm t).read sorts (fun _ ty => some ty) = some t.ty := by
  induction t using Term.induct with
  | const value => rw [ofTerm, Term.fold_const, Term.ty_const]; rfl
  | ref r => rw [ofTerm, Term.fold_ref, Term.ty_ref]; rfl
  | app op args ih =>
    obtain ⟨hargs, htakes⟩ := Term.isTyped_app.mp h
    rw [read_ofTerm_app]
    apply sorts_ofApp htakes
    rw [ReadAs, List.forall₂_map_left_iff, List.forall₂_map_right_iff, List.forall₂_same]
    exact fun a ha => ih a ha (hargs a ha)

end

/-! ### Values -/

section

open Smt

variable {z : ZeroReading} {symbols : String → Ty → Option Scalar} {es : List Formula} {vs : List Scalar}

theorem all_zipWith (rel : Scalar → Scalar → Bool) (vs : List Scalar) :
    (List.zipWith (fun a b => Scalar.bool (rel a b)) vs vs.tail).all Scalar.truth = Op.chain rel vs := by
  induction vs with
  | nil => rfl
  | cons a vs ih =>
    cases vs with
    | nil => rfl
    | cons b vs => exact congrArg (rel a b && ·) ih

theorem apply_and (hvs : ∀ v ∈ vs, v.ty = .bool) :
    Head.and.apply (values z) vs = some (.bool (vs.all Scalar.truth)) := by
  cases vs with
  | nil => rfl
  | cons a rest =>
    have hunit : ∀ v ∈ Scalar.bool true :: a :: rest, v.ty = .bool := List.forall_mem_cons.mpr ⟨rfl, hvs⟩
    exact (Theory.apply_left rfl _ _ _).symm.trans (values_and hunit)

theorem apply_or (hvs : ∀ v ∈ vs, v.ty = .bool) :
    Head.or.apply (values z) vs = some (.bool (vs.any Scalar.truth)) := by
  cases vs with
  | nil => rfl
  | cons a rest =>
    have hunit : ∀ v ∈ Scalar.bool false :: a :: rest, v.ty = .bool := List.forall_mem_cons.mpr ⟨rfl, hvs⟩
    exact (Theory.apply_left rfl _ _ _).symm.trans (values_or hunit)

theorem values_comparisons {head : Head} (hhead : head ∈ [.eq, .ge, .le, .gt, .lt])
    {rel : Scalar → Scalar → Bool}
    (hrel : ∀ a ∈ vs, ∀ b ∈ vs, (values z).binary head.text a b = some (.bool (rel a b)) ∧
      (values z).binary head.flipped.text b a = some (.bool (rel a b)))
    (hes : ReadAs (values z) symbols es vs) :
    (chain (compare head) es).read (values z) symbols = some (.bool (Op.chain rel vs)) := by
  refine read_chain (g := fun a b => .bool (rel a b)) ?_ hes ?_ ?_
  · intro e f a b ha hb he hf
    obtain ⟨hvalue, hflipped⟩ := hrel a ha b hb
    exact read_compare hhead he hf hvalue hflipped
  · rintro a b rfl
    simp [Op.chain]
  · rw [← all_zipWith]
    apply apply_and
    intro v hv
    obtain ⟨i, hi, rfl⟩ := List.mem_iff_getElem.mp hv
    rw [List.getElem_zipWith]
    rfl

theorem values_joined {op : Op} {g : Scalar → Scalar → Scalar} {head : Head}
    (hop : op = .add ∧ g = .add ∨ op = .sub ∧ g = .sub ∨ op = .mul ∧ g = .mul)
    (hhead : head ∈ [.add, .sub, .mul]) (htext : head.text = op.symbol) {t : Ty} (ht : t ≠ .bool)
    (hvs : ∀ v ∈ vs, v.ty = t) {v : Scalar} (hv : Op.accumulate g vs = .ok v)
    (hes : ReadAs (values z) symbols es vs) :
    (joined head es).read (values z) symbols = some v := by
  cases hes with
  | nil => cases hv
  | @cons e a es vs he hes =>
    refine read_joined ?_ he hes ?_
    · cases head <;> first | exact fun _ _ => rfl | simp at hhead
    rw [htext, ← Except.ok.inj hv]
    cases vs with
    | nil => rfl
    | cons b vs =>
      have hextension : extension? op.symbol = some .left := by
        rcases hop with ⟨rfl, -⟩ | ⟨rfl, -⟩ | ⟨rfl, -⟩ <;> rfl
      exact (Theory.apply_left hextension _ _ _).symm.trans (values_arith hop ht hvs)

/-- A comparison says of exchanged sides what its flipped form says of the sides in place. -/
theorem values_relation {op : Op} (flipped : Op) {head : Head} (hhead : head ∈ [.eq, .ge, .le, .gt, .lt])
    (hop : op.isRelation = true ∧ flipped.isRelation = true)
    (htexts : head.text = op.symbol ∧ head.flipped.text = flipped.symbol)
    (hflipped : ∀ a b, Scalar.compare flipped b a = Scalar.compare op a b) {t : Ty} (ht : t ≠ .bool)
    (hvs : ∀ v ∈ vs, v.ty = t) {v : Scalar} (hv : op.apply vs = .ok v)
    (hes : ReadAs (values z) symbols es vs) :
    (chain (compare head) es).read (values z) symbols = some v := by
  have hvalue : op.apply vs = .ok (.bool (Op.chain (Scalar.compare op) vs)) := by
    cases op <;> first | exact absurd hop.1 (by decide) | rfl
  rw [← Except.ok.inj (hvalue.symm.trans hv)]
  refine values_comparisons hhead (fun a ha b hb => ⟨?_, ?_⟩) hes
  · rw [htexts.1]
    exact binary_relation hop.1 ht (hvs a ha) (hvs b hb)
  · rw [htexts.2, ← hflipped]
    exact binary_relation hop.2 ht (hvs b hb) (hvs a ha)

theorem values_quotient {t : Ty} (ht : t ≠ .bool) (htys : vs.map Scalar.ty = [t, t]) {v : Scalar}
    (hv : Op.div.apply vs = .ok v) (hes : ReadAs (values z) symbols es vs) :
    (ofApp .div (some t) es).read (values z) symbols = some v := by
  obtain ⟨a, b, rfl, hb, rfl⟩ := Op.divide_eq_ok hv
  simp only [List.map_cons, List.map_nil, List.cons.injEq, and_true] at htys
  obtain ⟨ha, hty⟩ := htys
  match es, hes with
  | [e, f], .cons he (.cons hf .nil) =>
    cases t with
    | bool => exact absurd rfl ht
    | int =>
      obtain ⟨i, rfl⟩ := eq_int_of_ty ha
      obtain ⟨j, rfl⟩ := eq_int_of_ty hty
      have hreal : ∀ {e : Formula} {i : Int}, e.read (values z) symbols = some (.int i) →
          (node .toReal [e]).read (values z) symbols = some (.rat i) :=
        fun he => read_node (.cons he .nil)
      exact (read_node (.cons (hreal he) (.cons (hreal hf) .nil))).trans (binary_div i hb)
    | rat =>
      cases a <;> cases ha
      cases b <;> cases hty
      exact (read_node (.cons he (.cons hf .nil))).trans (binary_div _ hb)

theorem values_ofApp {op : Op} {t : Ty} {v : Scalar} (h : op.Takes (vs.map Scalar.ty) t)
    (hv : op.apply vs = .ok v) (hes : ReadAs (values z) symbols es vs) :
    (ofApp op (vs.map Scalar.ty).head? es).read (values z) symbols = some v := by
  generalize htys : vs.map Scalar.ty = tys at h
  cases h with
  | choice t =>
    obtain ⟨b, onTrue, onFalse, rfl, -⟩ := choice_of_map_ty htys
    exact (read_node hes).trans (values_choice htys hv)
  | negation =>
    obtain ⟨p, rfl⟩ := bool_of_map_ty htys
    exact (read_node hes).trans (values_negation htys hv)
  | junction hop =>
    rcases hop with rfl | rfl
    · rw [← Except.ok.inj hv]
      exact (read_node hes).trans (apply_and (Op.ty_of_mem htys))
    · rw [← Except.ok.inj hv]
      exact (read_node hes).trans (apply_or (Op.ty_of_mem htys))
  | implication =>
    obtain ⟨p, hp, rfl⟩ := except_map_eq_ok.mp hv
    exact read_implication hes (values_right (Op.ty_of_mem htys) hp)
  | equality t hn =>
    obtain ⟨a, b, rest, rfl⟩ := two_of_map_ty htys hn
    have hvs := Op.ty_of_mem htys
    have hvalue : v = .bool (Op.chain Scalar.same (a :: b :: rest)) := by
      rw [← Except.ok.inj hv, chain_same]
      rfl
    rw [hvalue]
    refine values_comparisons (by decide) (fun c hc d hd => ?_) hes
    have hsame : d.same c = c.same d := decide_eq_decide.mpr eq_comm
    exact ⟨binary_eq (hvs c hc) (hvs d hd), (binary_eq (hvs d hd) (hvs c hc)).trans (by rw [hsame])⟩
  | relation hop ht hn =>
    have hvs := Op.ty_of_mem htys
    cases op with
    | ge => exact values_relation .le (by decide) ⟨rfl, rfl⟩ ⟨rfl, rfl⟩ (fun _ _ => rfl) ht hvs hv hes
    | le => exact values_relation .ge (by decide) ⟨rfl, rfl⟩ ⟨rfl, rfl⟩ (fun _ _ => rfl) ht hvs hv hes
    | gt => exact values_relation .lt (by decide) ⟨rfl, rfl⟩ ⟨rfl, rfl⟩ (fun _ _ => rfl) ht hvs hv hes
    | lt => exact values_relation .gt (by decide) ⟨rfl, rfl⟩ ⟨rfl, rfl⟩ (fun _ _ => rfl) ht hvs hv hes
    | _ => cases hop
  | sum hop ht hn =>
    have hvs := Op.ty_of_mem htys
    rcases hop with rfl | rfl
    · exact values_joined (.inl ⟨rfl, rfl⟩) (by decide) rfl ht hvs hv hes
    · match vs, es, hes with
      | [], _, _ => cases hv
      | [a], [e], .cons he .nil =>
        rw [← Except.ok.inj hv]
        refine (read_node (.cons he .nil)).trans (values_neg ?_)
        rwa [hvs a (by simp)]
      | a :: b :: vs, e :: f :: es, hes =>
        exact values_joined (.inr (.inl ⟨rfl, rfl⟩)) (by decide) rfl ht hvs hv hes
  | product ht hn =>
    exact values_joined (.inr (.inr ⟨rfl, rfl⟩)) (by decide) rfl ht (Op.ty_of_mem htys) hv hes
  | quotient ht => exact values_quotient ht htys hv hes
  | whole hop =>
    rcases hop with rfl | rfl
    · obtain ⟨a, b, rfl, -⟩ := Op.divide_eq_ok hv
      exact (read_node hes).trans (values_whole (.inl rfl) htys hv)
    · obtain ⟨a, b, rfl, -⟩ := Op.divide_eq_ok hv
      exact (read_node hes).trans (values_whole (.inr rfl) htys hv)

theorem readAs_of_collect {α ε : Type} {T : Theory α} {symbols : String → Ty → Option α}
    {args : List Term} {f : Term → Except ε α} {as : List α} (hcollect : collect (args.map f) = .ok as)
    (h : ∀ t ∈ args, ∀ a, f t = .ok a → (ofTerm t).read T symbols = some a) :
    ReadAs T symbols (args.map ofTerm) as := by
  induction args generalizing as with
  | nil =>
    rw [← Except.ok.inj hcollect]
    exact .nil
  | cons t args ih =>
    obtain ⟨a, as, ha, has, rfl⟩ := collect_cons_eq_ok.mp hcollect
    exact .cons (h t (by simp) a ha) (ih has fun u hu => h u (List.mem_cons_of_mem t hu))

theorem values_ofTerm {env : Valuation} {t : Term} {v : Scalar} (h : t.isTyped = true)
    (htyped : ∀ r ∈ t.refs, ∀ w, env.exact r = .ok w → w.ty = r.ty)
    (hsymbols : ∀ r ∈ t.refs, ∀ w, env.exact r = .ok w → symbols r.text r.ty = some w)
    (hv : t.evaluate env = .ok v) : (ofTerm t).read (values z) symbols = some v := by
  induction t using Term.induct generalizing v with
  | const value =>
    rw [Term.evaluate, Term.fold_const] at hv
    rw [ofTerm, Term.fold_const, ← Except.ok.inj hv]
    rfl
  | ref r =>
    rw [Term.evaluate, Term.fold_ref] at hv
    rw [ofTerm, Term.fold_ref]
    exact hsymbols r (by simp [Term.refs]) v hv
  | app op args ih =>
    obtain ⟨hargs, htakes⟩ := Term.isTyped_app.mp h
    rw [Term.evaluate_app] at hv
    obtain ⟨vs, hvs, hv⟩ := except_bind_eq_ok.mp hv
    have htys : vs.map Scalar.ty = args.map Term.ty := by
      apply map_of_collect hvs
      intro a ha w hw
      exact Term.ty_of_evaluate (hargs a ha) (fun r hr => htyped r (Term.refs_of_mem ha r hr)) hw
    rw [read_ofTerm_app, ← htys]
    refine values_ofApp (htys ▸ htakes) hv (readAs_of_collect hvs fun a ha w hw => ?_)
    exact ih a ha (hargs a ha) (fun r hr => htyped r (Term.refs_of_mem ha r hr))
      (fun r hr => hsymbols r (Term.refs_of_mem ha r hr)) hw

end

end Formula

namespace Term

/-- Solvers know typed values only, and evaluation takes them for the equal ones it is given. -/
theorem evaluate_coerced {t : Term} {env : Valuation} {v : Scalar} (h : t.isTyped = true)
    (henv : ∀ r ∈ t.refs, ∀ w, env.exact r = .ok w → (w.coerce r.ty).toRat = w.toRat)
    (hv : t.evaluate env = .ok v) :
    t.evaluate env.coerced = .ok (v.coerce t.ty) ∧ (v.coerce t.ty).toRat = v.toRat := by
  have hequal : ∀ r ∈ t.refs, (env.coerced.exact r).map Scalar.toRat = (env.exact r).map Scalar.toRat := by
    intro r hr
    rw [Valuation.exact_coerced]
    cases hw : env.exact r with
    | error e => rfl
    | ok w => exact congrArg Except.ok (henv r hr w hw)
  have hvalues := evaluate_congr hequal
  rw [hv] at hvalues
  obtain ⟨w, hw, hwv⟩ := except_map_eq_ok.mp hvalues
  have hty : w.ty = t.ty := by
    refine ty_of_evaluate h (fun r _ u hu => ?_) hw
    rw [Valuation.exact_coerced] at hu
    obtain ⟨x, -, rfl⟩ := except_map_eq_ok.mp hu
    exact Scalar.ty_coerce r.ty x
  have hcoerce : v.coerce t.ty = w := by rw [← hty, ← Scalar.eq_coerce hwv]
  rw [hcoerce]
  exact ⟨hw, hwv⟩

def constantOf (t : Term) (env : Valuation) (name : String) (ty : Ty) : Option Scalar :=
  (t.refs.find? fun r => r.text = name ∧ r.ty = ty).bind fun r => (env.coerced.exact r).toOption

theorem constantOf_text {t : Term} {env : Valuation}
    (hnames : ∀ r ∈ t.refs, ∀ r' ∈ t.refs, r.var.name = r'.var.name → r.var = r'.var) {r : Ref}
    (hr : r ∈ t.refs) : t.constantOf env r.text r.ty = (env.coerced.exact r).toOption := by
  obtain ⟨r', hfind⟩ : ∃ r', (t.refs.find? fun s => s.text = r.text ∧ s.ty = r.ty) = some r' := by
    rw [← Option.isSome_iff_exists, List.find?_isSome]
    exact ⟨r, hr, by simp⟩
  obtain ⟨htext, -⟩ : r'.text = r.text ∧ r'.ty = r.ty := by simpa using List.find?_some hfind
  obtain ⟨hname, hstep⟩ := Ref.text_injective htext
  have hvar := hnames r' (List.mem_of_find?_eq_some hfind) r hr hname
  obtain rfl : r' = r := by cases r; cases r'; simp_all
  rw [constantOf, hfind, Option.bind_some]

/-- The expression of a term is the term: it has the sort of the term, and under values that are equal to
ones of the types of their references, its value is that of the term. -/
theorem expression_reads_as {t : Term} (h : t.isTyped = true)
    (hnames : ∀ r ∈ t.refs, ∀ r' ∈ t.refs, r.var.name = r'.var.name → r.var = r'.var) :
    (Formula.ofTerm t).read Smt.sorts (fun _ ty => some ty) = some t.ty ∧
      ∀ z env v, (∀ r ∈ t.refs, ∀ w, env.exact r = .ok w → (w.coerce r.ty).toRat = w.toRat) →
        t.evaluate env = .ok v →
        (Formula.ofTerm t).read (Smt.values z) (t.constantOf env) = some (v.coerce t.ty) ∧
          (v.coerce t.ty).toRat = v.toRat := by
  refine ⟨Formula.sorts_ofTerm h, fun z env v henv hv => ?_⟩
  obtain ⟨hvalue, hequal⟩ := evaluate_coerced h henv hv
  refine ⟨Formula.values_ofTerm h ?_ ?_ hvalue, hequal⟩
  · intro r _ w hw
    rw [Valuation.exact_coerced] at hw
    obtain ⟨u, -, rfl⟩ := except_map_eq_ok.mp hw
    exact Scalar.ty_coerce r.ty u
  · intro r hr w hw
    rw [constantOf_text hnames hr, hw]
    rfl

def quarter : Term := .app .div [.ref ⟨⟨"x", .int, .state⟩, 0⟩, .const (.int 4)]

/-- A quarter of a whole number is at least zero and less than one. -/
def quarterBounds : Term :=
  .app .and [.app .le [.const (.rat 0), quarter, .const (.rat 1)],
    .app .not [.app .eq [quarter, .const (.rat 1)]]]

theorem quarterBounds_reads_as :
    (Formula.ofTerm quarterBounds).read Smt.sorts (fun _ ty => some ty) = some .bool ∧
      ∀ z, (Formula.ofTerm quarterBounds).read (Smt.values z)
        (quarterBounds.constantOf fun _ => some (.exact (.int 3))) = some (.bool true) := by
  have hrefs : ∀ r ∈ quarterBounds.refs, r = ⟨⟨"x", .int, .state⟩, 0⟩ := by
    simp [quarterBounds, quarter, refs]
  have hwhole : ∀ r ∈ quarterBounds.refs, ∀ w,
      Valuation.exact (fun _ => some (.exact (.int 3))) r = .ok w →
        (w.coerce r.ty).toRat = w.toRat := by
    intro r hr w hw
    rw [hrefs r hr, ← Except.ok.inj hw]
    rfl
  obtain ⟨hsort, hvalue⟩ := expression_reads_as (t := quarterBounds) (by decide +kernel)
    fun r hr r' hr' _ => by rw [hrefs r hr, hrefs r' hr']
  exact ⟨hsort, fun z => (hvalue z _ (.bool true) hwhole (by decide +kernel)).1⟩

example : Formula.ofTerm (.app .le [.const (.rat 0), quarter, .const (.rat 1)]) =
    let quotient := .node .div
      [.node .toReal [.symbol "x@0" .int], .node .toReal [.literal (.int 4)]]
    .node .and [.node .le [.literal (.rat 0), quotient], .node .ge [.literal (.rat 1), quotient]] := by
  cbv

end Term

end InvariantProver
