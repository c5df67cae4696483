import InvariantProver.Proofs.Session.Piping

namespace InvariantProver.Pipe

open Peer

def successive : Nat → Hook Pipe (List (Option String))
  | 0 => pure []
  | n + 1 => do
    let earlier ← successive n
    return earlier ++ [← response?]

def Framed (e : SExpr) (lines : List Line) : Prop :=
  ∃ cs, Spread e.tokens cs lines ∧ ¬ "(error".toList <+: cs

section

variable {e : SExpr} {lines more rest : List Line} {blocks : List (SExpr × List Line)} {link : Link Pipe}

theorem response_framed (h : Framed e lines) (hunread : link.backend.peer.unread = lines ++ more) :
    ∃ text, outcome response? link =
        (.ok (some text), withPeer { link.backend.peer with unread := more } link) ∧
      SExpr.parseOne text = .ok e := by
  obtain ⟨cs, hspread, herror⟩ := h
  obtain ⟨hgather, hwritten⟩ := gather_framed more hspread
  have htext : (String.ofList cs).toList = cs := String.toList_ofList
  refine ⟨String.ofList cs, outcome_response link (by rw [hunread, hgather]) ?_,
    SExpr.parseOne_of_written (by rwa [htext])⟩
  rwa [← Bool.not_eq_true, List.isPrefixOf_iff_prefix, htext]

theorem successive_framed (hblocks : ∀ block ∈ blocks, Framed block.1 block.2)
    (hunread : link.backend.peer.unread = blocks.flatMap (·.2) ++ rest) {n : Nat} (hn : n ≤ blocks.length) :
    ∃ texts, outcome (successive n) link = (.ok (texts.map some), withPeer { link.backend.peer with
        unread := (blocks.drop n).flatMap (·.2) ++ rest } link) ∧
      List.Forall₂ (fun text block => SExpr.parseOne text = .ok block.1) texts (blocks.take n) := by
  induction n with
  | zero =>
    refine ⟨[], ?_, .nil⟩
    rw [List.drop_zero, ← hunread]
    rfl
  | succ n ih =>
    obtain ⟨texts, hearlier, htexts⟩ := ih (Nat.le_of_succ_le hn)
    have hblock := hblocks _ (List.getElem_mem hn)
    rw [List.drop_eq_getElem_cons hn, List.flatMap_cons, List.append_assoc] at hearlier
    have hleft : (withPeer { link.backend.peer with
        unread := blocks[n].2 ++ ((blocks.drop (n + 1)).flatMap (·.2) ++ rest) } link).backend.peer.unread =
      blocks[n].2 ++ ((blocks.drop (n + 1)).flatMap (·.2) ++ rest) := rfl
    obtain ⟨text, hnext, htext⟩ := response_framed hblock hleft
    refine ⟨texts ++ [text], ?_, ?_⟩
    · rw [successive, outcome_bind_of_ok hearlier, outcome_bind_of_ok hnext, List.map_append]
      rfl
    · rw [List.take_succ_eq_append_getElem hn]
      exact List.rel_append htexts (.cons htext .nil)

end

/-- From the lines of some S-expressions, as many reads give texts from which these S-expressions are read in
their order. Each of them takes the lines up to the end of its S-expression and no more, and one more read
gives nothing. -/
theorem recovers_responses {link : Link Pipe} {blocks : List (SExpr × List Line)} {rest : List Line}
    (hblocks : ∀ block ∈ blocks, Framed block.1 block.2) (hrest : ∀ line ∈ rest, Skipped line)
    (hunread : link.backend.peer.unread = blocks.flatMap (·.2) ++ rest) :
    (∀ n ≤ blocks.length, ∃ texts, outcome (successive n) link = (.ok (texts.map some),
        withPeer { link.backend.peer with unread := (blocks.drop n).flatMap (·.2) ++ rest } link) ∧
      List.Forall₂ (fun text block => SExpr.parseOne text = .ok block.1) texts (blocks.take n)) ∧
    ∃ texts, outcome (successive (blocks.length + 1)) link = (.ok (texts.map some ++ [none]),
        withPeer ({ link.backend.peer with unread := [] } : Peer).finish link) ∧
      List.Forall₂ (fun text block => SExpr.parseOne text = .ok block.1) texts blocks := by
  refine ⟨fun n hn => successive_framed hblocks hunread hn, ?_⟩
  obtain ⟨texts, hall, htexts⟩ := successive_framed hblocks hunread le_rfl
  rw [List.drop_length, List.flatMap_nil, List.nil_append] at hall
  rw [List.take_length] at htexts
  have hquiet : Quiet rest := fun line hline => noise_of_skipped (hrest line hline)
  have hended := outcome_ended (withPeer { link.backend.peer with unread := rest } link) (gather_of_quiet hquiet)
  refine ⟨texts, ?_, htexts⟩
  rw [successive, outcome_bind_of_ok hall, outcome_bind_of_ok hended]
  rfl

def reasonAndAnswer : List (SExpr × List Line) :=
  [(.list [.atom ":reason-unknown", .atom "a ) in it"],
      [.text "; asked why", .text "  (:reason-unknown", .text "", .text "\t|a ) in it| )"]),
    (.atom "sat", [.text " sat"])]

theorem framed_reasonAndAnswer : ∀ block ∈ reasonAndAnswer, Framed block.1 block.2 := by
  have hblank : ∀ c ∈ [' '], Text.isBlank c = true := List.all_eq_true.mp (by decide)
  have hword : Token.Written [.opening, .atom (String.ofList ":reason-unknown".toList)]
      (['('] ++ ([] ++ ":reason-unknown".toList)) :=
    .cons .opening (by simp) (by simp) (.one (.plain (List.all_eq_true.mp (by decide))))
  have hreason : Token.Written [.atom (String.ofList "a ) in it".toList), .closing]
      ("|a ) in it|".toList ++ ([' '] ++ [')'])) :=
    .cons (.barred (by decide)) hblank (fun _ _ => Token.parted_of_blanks _ (by simp) hblank) (.one .closing)
  have hhead : Bears _ _ (.text "  (:reason-unknown") :=
    ⟨hword, [' ', ' '], [], List.all_eq_true.mp (by decide), by simp, rfl⟩
  have hend : Bears _ _ (.text "\t|a ) in it| )") :=
    ⟨hreason, ['\t'], [], List.all_eq_true.mp (by decide), by simp, rfl⟩
  have hempty : Skipped (.text "") := ⟨[], [], by simp, .inl rfl, rfl⟩
  have hsat : Bears [.atom (String.ofList "sat".toList)] "sat".toList (.text " sat") :=
    ⟨.one (.plain (List.all_eq_true.mp (by decide))), [' '], [], hblank, by simp, rfl⟩
  intro block hblock
  rcases List.mem_cons.mp hblock with rfl | hblock
  · have hspread := Spread.skip ⟨[], "; asked why".toList, by simp, .inr ⟨_, rfl⟩, rfl⟩ (.line hhead
      (.skip hempty (.last hend)))
    have htokens : (SExpr.list [.atom ":reason-unknown", .atom "a ) in it"]).tokens =
        [.opening, .atom (String.ofList ":reason-unknown".toList)] ++
          [.atom (String.ofList "a ) in it".toList), .closing] := by simp
    refine ⟨_, htokens ▸ hspread, ?_⟩
    decide
  · obtain rfl := List.mem_singleton.mp hblock
    have htokens : (SExpr.atom "sat").tokens = [.atom (String.ofList "sat".toList)] := by simp
    refine ⟨_, htokens ▸ Spread.last hsat, ?_⟩
    decide

def told (unread : List Line) : Link Pipe := { backend := ⟨⟨"z3", "z3", []⟩, 0, { unread := unread }⟩ }

theorem recovers_reasonAndAnswer :
    ∃ texts, outcome (successive 3) (told (reasonAndAnswer.flatMap (·.2) ++ [.text "; done"])) =
        (.ok (texts.map some ++ [none]), withPeer ({} : Peer).finish (told [])) ∧
      List.Forall₂ (fun text block => SExpr.parseOne text = .ok block.1) texts reasonAndAnswer := by
  refine (recovers_responses framed_reasonAndAnswer (fun line hline => ?_) rfl).2
  obtain rfl := List.mem_singleton.mp hline
  exact ⟨[], "; done".toList, by simp, .inr ⟨_, rfl⟩, rfl⟩

end InvariantProver.Pipe
