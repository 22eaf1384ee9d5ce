import Parley.Proofs.Grammar.Feeding
import Parley.Proofs.Node.Converted
import Parley.Proofs.Node.Proper

/-! Every node that comes from a text is proper. The reader only puts together what may stand
together: a state is proper if all it holds gives proper nodes, and every token of a text leads from a
proper state to a proper state. -/

namespace Parley

open Parley.Grammar

/-! Atoms -/

theorem foldl_digits_lt {ds : List Char} (hds : ∀ d ∈ ds, d.isDigit = true) (n : Nat) :
    ds.foldl (fun n d => 10 * n + (d.toNat - '0'.toNat)) n < (n + 1) * 10 ^ ds.length := by
  induction ds generalizing n with
  | nil => simp
  | cons d ds ih =>
      have hd : d.toNat - '0'.toNat ≤ 9 := by
        have h := hds d List.mem_cons_self
        simp only [Char.isDigit, Bool.and_eq_true, decide_eq_true_eq, UInt32.le_iff_toNat_le] at h
        have h9 : d.toNat ≤ 57 := h.2
        have h0 : '0'.toNat = 48 := rfl
        omega
      calc (d :: ds).foldl (fun n d => 10 * n + (d.toNat - '0'.toNat)) n
          < (10 * n + (d.toNat - '0'.toNat) + 1) * 10 ^ ds.length :=
            ih (fun e he => hds e (List.mem_cons_of_mem d he)) _
        _ ≤ (10 * (n + 1)) * 10 ^ ds.length := Nat.mul_le_mul_right _ (by omega)
        _ = (n + 1) * 10 ^ (d :: ds).length := by rw [List.length_cons, Nat.pow_succ, Nat.mul_comm 10, Nat.mul_assoc, Nat.mul_comm 10]

/-- A number that is read has no more digits than can be written. -/
theorem lt_tooLong_of_readDigits {ds : List Char} {n : Nat} (hds : ∀ d ∈ ds, d.isDigit = true)
    (h : Text.readDigits ds = .ok n) : n < Text.tooLong := by
  rw [Text.readDigits] at h
  split_ifs at h with hlength
  cases h
  calc Text.digitsValue ds < (0 + 1) * 10 ^ ds.length := foldl_digits_lt hds 0
    _ = 10 ^ ds.length := by rw [Nat.zero_add, Nat.one_mul]
    _ ≤ 10 ^ Text.digitLimit := Nat.pow_le_pow_right (by decide) (Nat.not_lt.mp hlength)
    _ = Text.tooLong := tooLong_eq.symm

theorem proper_ofWord {word : String} (hword : isName word.toList = true) :
    (Atom.ofWord word).Proper := by
  by_cases hliteral : word ∈ literalWords
  · simp only [literalWords, List.mem_cons, List.not_mem_nil, or_false] at hliteral
    rcases hliteral with rfl | rfl | rfl | rfl | rfl <;> trivial
  · rw [Atom.ofWord_eq_variable hliteral]
    exact ⟨hword, hliteral⟩

namespace Grammar.Token.Proper

variable {t : Token}

theorem name (ht : t.Proper) (hkind : t.kind = .name) : isName t.text.toList = true := by
  rwa [Token.Proper, hkind] at ht

theorem operator (ht : t.Proper) (hkind : t.kind = .operator) : Selector.isBinary t.text = true := by
  rw [Token.Proper, hkind, spells, String.ofList_toList] at ht
  exact ht

theorem slot (ht : t.Proper) (hkind : t.kind = .slot) :
    isName (dropMark t.text).toList = true := by
  rw [Token.Proper, hkind, spells, Bool.and_eq_true] at ht
  rw [dropMark, String.toList_ofList, List.drop_one]
  exact ht.2

theorem symbol (ht : t.Proper) (hkind : t.kind = .symbol) :
    isSymbolName (dropMark t.text).toList = true := by
  rw [Token.Proper, hkind, spells, Bool.and_eq_true] at ht
  rw [dropMark, String.toList_ofList, List.drop_one]
  exact ht.2

theorem equals (ht : t.Proper) (hkind : t.kind = .equals) : t.text = "=" := by
  rw [Token.Proper, hkind, spells, beq_iff_eq] at ht
  exact String.toList_inj.mp ht

theorem walrus (ht : t.Proper) (hkind : t.kind = .walrus) : t.text = ":=" := by
  rw [Token.Proper, hkind, spells, beq_iff_eq] at ht
  exact String.toList_inj.mp ht

/-- A token that is an expression by itself stands for a proper atom. -/
theorem atom (ht : t.Proper) (hatom : t.isAtom = true) {a : Atom} (h : Atom.ofToken t = .ok a) :
    a.Proper := by
  rw [Atom.ofToken] at h
  cases hkind : t.kind <;> rw [Token.isAtom, hkind] at hatom <;> rw [hkind] at h <;>
    simp only at h hatom
  case integer =>
      rw [Token.Proper, hkind, spells, List.all_eq_true] at ht
      split at h
      · next n hn =>
          cases h
          exact ⟨Int.natCast_nonneg n, lt_tooLong_of_readDigits ht hn⟩
      · cases h
  case string => cases h; trivial
  case symbol => cases h; exact ht.symbol hkind
  case slot => cases h; exact ht.slot hkind
  case name => cases h; exact proper_ofWord (ht.name hkind)
  all_goals cases hatom

end Grammar.Token.Proper

namespace Grammar

/-- Whatever node the tree is converted to may stand at the place. -/
def Tree.Gives (place : Place) (t : Tree) : Prop :=
  ∀ (file : Option String) (n : Node), Node.ofTree file t = .ok n → n.Proper place

theorem forall_proper_of_ofTrees {place : Place} {ts : List Tree} (hts : ∀ t ∈ ts, t.Gives place)
    {file : Option String} {ns : List Node} (h : Node.ofTrees file ts = .ok ns) :
    ns.length = ts.length ∧ ∀ n ∈ ns, n.Proper place := by
  have hpairs := forall₂_of_ofTrees h
  refine ⟨hpairs.length_eq.symm, fun n hn => ?_⟩
  obtain ⟨t, ht, hn⟩ := exists_tree_of_mem hpairs hn
  exact hts t ht file n hn

namespace Tree.Gives

variable {place : Place} {span : Span}

theorem statement {t : Tree} (h : t.Gives .expression) : t.Gives .statement :=
  fun file n hn => (h file n hn).statement

theorem atom {t : Token} (ht : t.Proper) (hatom : t.isAtom = true) :
    (Tree.atom t).Gives place := by
  intro file n h
  rw [Node.ofTree] at h
  obtain ⟨a, ha, h⟩ := exists_of_bind_eq_ok h
  cases h
  exact .atom (ht.atom hatom ha)

theorem list {items : List Tree} (hitems : ∀ t ∈ items, t.Gives .expression) :
    (Tree.list span items).Gives place := by
  intro file n h
  rw [Node.ofTree] at h
  obtain ⟨ns, hns, h⟩ := exists_of_bind_eq_ok h
  cases h
  exact .list (forall_proper_of_ofTrees hitems hns).2

theorem unary {receiver : Tree} {name : Token} (hreceiver : receiver.Gives .expression)
    (hname : isName name.text.toList = true) : (Tree.unary span receiver name).Gives place := by
  intro file n h
  rw [Node.ofTree] at h
  obtain ⟨r, hr, h⟩ := exists_of_bind_eq_ok h
  cases h
  exact .unary (hreceiver file r hr) hname

theorem binary {receiver argument : Tree} {operator : Token}
    (hreceiver : receiver.Gives .expression) (hoperator : Selector.isBinary operator.text = true)
    (hargument : argument.Gives .expression) :
    (Tree.binary span receiver operator argument).Gives place := by
  intro file n h
  rw [Node.ofTree] at h
  obtain ⟨r, hr, h⟩ := exists_of_bind_eq_ok h
  obtain ⟨a, ha, h⟩ := exists_of_bind_eq_ok h
  cases h
  exact .binary (hreceiver file r hr) hoperator (hargument file a ha)

theorem keyword {receiver : Tree} {name : Option Token} {keywords : List Token}
    {arguments : List Tree} (hreceiver : receiver.Gives .expression)
    (hname : ∀ t ∈ name, isName t.text.toList = true)
    (hkeywords : ∀ t ∈ keywords, isName t.text.toList = true) (hne : keywords ≠ [])
    (hlength : keywords.length = arguments.length)
    (hargs : ∀ t ∈ arguments, t.Gives .expression) :
    (Tree.keyword span receiver name keywords arguments).Gives place := by
  intro file n h
  rw [Node.ofTree] at h
  obtain ⟨r, hr, h⟩ := exists_of_bind_eq_ok h
  obtain ⟨ns, hns, h⟩ := exists_of_bind_eq_ok h
  cases h
  obtain ⟨hcount, hproper⟩ := forall_proper_of_ofTrees hargs hns
  refine .keyword (hreceiver file r hr) ?_ ?_ (by simpa using hne) ?_ hproper
  · intro w hw
    obtain ⟨t, ht, rfl⟩ := Option.map_eq_some_iff.mp hw
    exact hname t ht
  · intro w hw
    obtain ⟨t, ht, rfl⟩ := List.mem_map.mp hw
    exact hkeywords t ht
  · rw [List.length_map, hlength, hcount]

theorem block {params : List Token} {bodySpan : Option Span} {body : List Tree}
    (hparams : ∀ t ∈ params, isName t.text.toList = true)
    (hbody : ∀ t ∈ body, t.Gives .statement) :
    (Tree.block span params bodySpan body).Gives place := by
  intro file n h
  rw [Node.ofTree] at h
  obtain ⟨ns, hns, h⟩ := exists_of_bind_eq_ok h
  split_ifs at h with hnodup
  · cases h
    refine .block ?_ hnodup (forall_proper_of_ofTrees hbody hns).2
    intro p hp
    obtain ⟨t, ht, rfl⟩ := List.mem_map.mp hp
    exact hparams t ht

theorem define {name operator : Token} {value : Tree}
    (htarget : (Target.define name.text operator.text).Proper) (hvalue : value.Gives .expression) :
    (Tree.define span name operator value).Gives .statement := by
  intro file n h
  rw [Node.ofTree] at h
  obtain ⟨v, hv, h⟩ := exists_of_bind_eq_ok h
  cases h
  exact .store htarget (hvalue file v hv)

theorem assign {target operator : Token} {value : Tree} (htarget : (Target.ofToken target).Proper)
    (hvalue : value.Gives .expression) : (Tree.assign span target operator value).Gives .statement := by
  intro file n h
  rw [Node.ofTree] at h
  obtain ⟨v, hv, h⟩ := exists_of_bind_eq_ok h
  cases h
  exact .store htarget (hvalue file v hv)

theorem answer {value : Tree} (hvalue : value.Gives .expression) :
    (Tree.answer span value).Gives .statement := by
  intro file n h
  rw [Node.ofTree] at h
  obtain ⟨v, hv, h⟩ := exists_of_bind_eq_ok h
  cases h
  exact .answer (hvalue file v hv)

end Tree.Gives

/-! What the reader holds -/

def Head.Proper (head : Head) : Prop := ∀ t ∈ head.params, isName t.text.toList = true

/-- The lead of a statement that a value makes into a statement. -/
def Lead.Proper : Lead → Prop
  | .define _ name operator => (Target.define name.text operator.text).Proper
  | .assign _ target _ => (Target.ofToken target).Proper
  | _ => True

structure OpenBody.Proper (body : OpenBody) : Prop where
  head : ∀ head ∈ body.head, head.Proper
  done : ∀ p ∈ body.done, p.tree.Gives .statement

/-- A send in which `missing` of the keywords have no argument yet. -/
structure OpenSend.Proper (missing : Nat) (send : OpenSend) : Prop where
  receiver : send.receiver.tree.Gives .expression
  name : ∀ t ∈ send.name, isName t.text.toList = true
  keywords : ∀ t ∈ send.keywords, isName t.text.toList = true
  arguments : ∀ p ∈ send.arguments, p.tree.Gives .expression
  length : send.keywords.length = send.arguments.length + missing

def Open.Proper : Open → Prop
  | .paren _ => True
  | .bracket _ => True
  | .items _ done => ∀ p ∈ done, p.tree.Gives .expression
  | .operand _ receiver operator =>
    receiver.tree.Gives .expression ∧ Selector.isBinary operator.text = true
  | .argument send => send.Proper 1
  | .statement body lead => body.Proper ∧ lead.Proper

def Expect.Proper : Expect → Prop
  | .expression => True
  | .completed p => p.tree.Gives .expression
  | .statement body => body.Proper
  | .target body _ => body.Proper
  | .definition body _ name => body.Proper ∧ isName name.text.toList = true
  | .assignment body _ token => body.Proper ∧ (Target.ofToken token).Proper
  | .lead body token =>
    body.Proper ∧ (Target.ofToken token).Proper ∧ token.part.tree.Gives .expression
  | .message _ receiver name =>
    receiver.tree.Gives .expression ∧ isName name.text.toList = true
  | .keyword send => send.Proper 0
  | .colon send => send.Proper 1
  | .params head => head.Proper
  | .paramMark head => head.Proper
  | .brace head => head.Proper

/-- A state in which everything that was read so far gives proper nodes. -/
structure State.Proper (s : State) : Prop where
  expect : s.expect.Proper
  stack : ∀ o ∈ s.stack, o.Proper

theorem forall_gives_map {place : Place} {ps : List Part} (h : ∀ p ∈ ps, p.tree.Gives place) :
    ∀ t ∈ (ps.map (·.tree)).reverse, t.Gives place := by
  intro t ht
  obtain ⟨p, hp, rfl⟩ := List.mem_map.mp (List.mem_reverse.mp ht)
  exact h p hp

theorem gives_listOf {opening closing : Token} {items : List Part}
    (h : ∀ p ∈ items, p.tree.Gives .expression) :
    (listOf opening closing items).tree.Gives .expression :=
  .list (forall_gives_map h)

theorem Lead.Proper.finish {lead : Lead} (hlead : lead.Proper) {p : Part}
    (hp : p.tree.Gives .expression) : (lead.finish p).tree.Gives .statement := by
  cases lead with
  | bare => exact hp.statement
  | define start name operator => exact .define hlead hp
  | assign start target operator => exact .assign hlead hp
  | answer start => exact .answer hp

theorem Head.Proper.block {head : Head} (hhead : head.Proper) {done : List Part} {stop : Point}
    (hdone : ∀ p ∈ done, p.tree.Gives .statement) (closing : Token) :
    (head.block (bodyOf done stop) closing).tree.Gives .expression :=
  .block (fun t ht => hhead t (List.mem_reverse.mp ht)) (forall_gives_map hdone)

theorem Head.Proper.add {head : Head} (hhead : head.Proper) {t : Token}
    (ht : isName t.text.toList = true) : Head.Proper { head with params := t :: head.params } :=
  List.forall_mem_cons.mpr ⟨ht, hhead⟩

theorem OpenBody.Proper.add {body : OpenBody} (hbody : body.Proper) {p : Part}
    (hp : p.tree.Gives .statement) (t : Token) : (body.add p t).Proper :=
  ⟨hbody.head, List.forall_mem_cons.mpr ⟨hp, hbody.done⟩⟩

theorem OpenSend.Proper.addArgument {send : OpenSend} {missing : Nat}
    (hsend : send.Proper (missing + 1)) {p : Part} (hp : p.tree.Gives .expression) :
    OpenSend.Proper missing { send with arguments := p :: send.arguments } := by
  refine ⟨hsend.receiver, hsend.name, hsend.keywords,
    List.forall_mem_cons.mpr ⟨hp, hsend.arguments⟩, ?_⟩
  have hlength := hsend.length
  simp only [List.length_cons]
  omega

theorem OpenSend.Proper.addKeyword {send : OpenSend} (hsend : send.Proper 0) {t : Token}
    (ht : isName t.text.toList = true) :
    OpenSend.Proper 1 { send with keywords := t :: send.keywords } := by
  refine ⟨hsend.receiver, hsend.name, List.forall_mem_cons.mpr ⟨ht, hsend.keywords⟩,
    hsend.arguments, ?_⟩
  rw [List.length_cons, hsend.length]

theorem OpenSend.Proper.finish {send : OpenSend} (hsend : send.Proper 1) {p : Part}
    (hp : p.tree.Gives .expression) (t : Token) : (send.finish p t).tree.Gives .expression := by
  have hargs := hsend.addArgument hp
  have hlength := hsend.length
  refine .keyword hsend.receiver hsend.name
    (fun u hu => hsend.keywords u (List.mem_reverse.mp hu)) ?_ ?_ (forall_gives_map hargs.arguments)
  · intro hnil
    rw [List.reverse_eq_nil_iff.mp hnil] at hlength
    simp at hlength
  · simp [hlength]

/-! Steps -/

theorem State.Proper.afterStatement {body : OpenBody} (hbody : body.Proper) {p : Part}
    (hp : p.tree.Gives .statement) {stack : List Open} (hstack : ∀ o ∈ stack, o.Proper) {t : Token}
    {s : State} (h : State.afterStatement body p stack t = some s) : s.Proper := by
  rw [State.afterStatement] at h
  split at h
  · cases h
    exact ⟨hbody.add hp t, hstack⟩
  · obtain ⟨head, hhead, rfl⟩ := Option.map_eq_some_iff.mp h
    refine ⟨(hbody.head head hhead).block ?_ t, hstack⟩
    exact List.forall_mem_cons.mpr ⟨hp, hbody.done⟩
  · cases h

theorem State.Proper.begin {stack : List Open} (hstack : ∀ o ∈ stack, o.Proper) {t : Token}
    (ht : t.Proper) {s : State} (h : State.begin stack t = some s) : s.Proper := by
  rw [State.begin] at h
  split_ifs at h with hatom
  · cases h
    exact ⟨Tree.Gives.atom ht hatom, hstack⟩
  · split at h <;> cases h
    · exact ⟨trivial, List.forall_mem_cons.mpr ⟨trivial, hstack⟩⟩
    · exact ⟨trivial, List.forall_mem_cons.mpr ⟨trivial, hstack⟩⟩
    · exact ⟨⟨fun head hhead => by cases hhead; exact List.forall_mem_nil _, List.forall_mem_nil _⟩,
        hstack⟩
    · exact ⟨List.forall_mem_nil _, hstack⟩

theorem State.Proper.follow {p : Part} (hp : p.tree.Gives .expression) {stack : List Open}
    (hstack : ∀ o ∈ stack, o.Proper) {t : Token} (ht : t.Proper) {s : State}
    (h : State.follow p stack t = some s) : s.Proper := by
  cases stack with
  | nil => cases h
  | cons top rest =>
      obtain ⟨htop, hrest⟩ := List.forall_mem_cons.mp hstack
      have hsingle : ∀ q ∈ [p], q.tree.Gives .expression := by simpa using hp
      cases top with
      | paren opening =>
          rw [State.follow] at h
          split at h <;> cases h
          exact ⟨hp, hrest⟩
      | bracket opening =>
          rw [State.follow] at h
          split at h <;> cases h
          · exact ⟨trivial, List.forall_mem_cons.mpr ⟨hsingle, hrest⟩⟩
          · exact ⟨gives_listOf hsingle, hrest⟩
          · next hkind => exact ⟨⟨hp, ht.name hkind⟩, hrest⟩
          · next hkind =>
              exact ⟨trivial, List.forall_mem_cons.mpr ⟨⟨hp, ht.operator hkind⟩, hrest⟩⟩
      | items opening done =>
          have hall : ∀ q ∈ p :: done, q.tree.Gives .expression :=
            List.forall_mem_cons.mpr ⟨hp, htop⟩
          rw [State.follow] at h
          split at h <;> cases h
          · exact ⟨trivial, List.forall_mem_cons.mpr ⟨hall, hrest⟩⟩
          · exact ⟨gives_listOf hall, hrest⟩
      | operand opening receiver operator =>
          rw [State.follow] at h
          split at h <;> cases h
          exact ⟨Tree.Gives.binary htop.1 htop.2 hp, hrest⟩
      | argument send =>
          have hnext := OpenSend.Proper.addArgument htop hp
          rw [State.follow] at h
          split at h <;> cases h
          · exact ⟨OpenSend.Proper.finish htop hp t, hrest⟩
          · exact ⟨hnext, hrest⟩
          · next hkind => exact ⟨hnext.addKeyword (ht.name hkind), hrest⟩
      | statement body lead => exact .afterStatement htop.1 (htop.2.finish hp) hrest h

theorem proper_target_of_name {t : Token} (ht : t.Proper) (hkind : t.kind = .name)
    (hlet : ¬t.text = "let") (hreturn : ¬t.text = "return")
    (hliteral : ¬literalWords.contains t.text = true) : (Target.ofToken t).Proper := by
  rw [Target.ofToken, hkind]
  exact ⟨ht.name hkind, by simpa using hliteral, hlet, hreturn⟩

theorem proper_target_of_slot {t : Token} (ht : t.Proper) (hkind : t.kind = .slot) :
    (Target.ofToken t).Proper := by
  rw [Target.ofToken, hkind]
  exact ht.slot hkind

theorem State.Proper.beginStatement {body : OpenBody} (hbody : body.Proper) {stack : List Open}
    (hstack : ∀ o ∈ stack, o.Proper) {t : Token} (ht : t.Proper) {s : State}
    (h : State.beginStatement body stack t = some s) : s.Proper := by
  have hbare : ∀ o ∈ Open.statement body .bare :: stack, o.Proper :=
    List.forall_mem_cons.mpr ⟨⟨hbody, trivial⟩, hstack⟩
  rw [State.beginStatement] at h
  split at h
  · obtain ⟨head, hhead, rfl⟩ := Option.map_eq_some_iff.mp h
    exact ⟨(hbody.head head hhead).block hbody.done t, hstack⟩
  · next hkind =>
      have hatom : t.isAtom = true := by rw [Token.isAtom, hkind]
      split_ifs at h with hlet hreturn hliteral <;> cases h
      · exact ⟨hbody, hstack⟩
      · exact ⟨trivial, List.forall_mem_cons.mpr ⟨⟨hbody, trivial⟩, hstack⟩⟩
      · exact ⟨Tree.Gives.atom ht hatom, hbare⟩
      · exact ⟨⟨hbody, proper_target_of_name ht hkind hlet hreturn hliteral, .atom ht hatom⟩, hstack⟩
  · next hkind =>
      cases h
      exact ⟨⟨hbody, proper_target_of_slot ht hkind, .atom ht (by rw [Token.isAtom, hkind])⟩, hstack⟩
  · exact .begin hbare ht h

/-- A token of a text leads from a proper state to a proper state. -/
theorem State.Proper.step {s s' : State} (hs : s.Proper) {t : Token} (ht : t.Proper)
    (h : s.step t = some s') : s'.Proper := by
  obtain ⟨expect, stack⟩ := s
  obtain ⟨hexpect, hstack⟩ := hs
  cases expect with
  | expression =>
      simp only [State.step] at h
      split at h
      · cases h
        exact ⟨gives_listOf (List.forall_mem_nil _), (List.forall_mem_cons.mp hstack).2⟩
      · exact .begin hstack ht h
  | completed p => exact .follow hexpect hstack ht h
  | statement body => exact .beginStatement hexpect hstack ht h
  | target body start =>
      simp only [State.step] at h
      split at h <;> cases h
      · next hkind => exact ⟨⟨hexpect, ht.name hkind⟩, hstack⟩
      · next hkind => exact ⟨⟨hexpect, proper_target_of_slot ht hkind⟩, hstack⟩
  | definition body start name =>
      simp only [State.step] at h
      split at h <;> cases h
      · next hkind =>
          have hlead : Lead.Proper (.define start name t) := ⟨hexpect.2, .inl (ht.equals hkind)⟩
          exact ⟨trivial, List.forall_mem_cons.mpr ⟨⟨hexpect.1, hlead⟩, hstack⟩⟩
      · next hkind =>
          have hlead : Lead.Proper (.define start name t) := ⟨hexpect.2, .inr (ht.walrus hkind)⟩
          exact ⟨trivial, List.forall_mem_cons.mpr ⟨⟨hexpect.1, hlead⟩, hstack⟩⟩
  | assignment body start token =>
      simp only [State.step] at h
      split at h <;> cases h
      exact ⟨trivial, List.forall_mem_cons.mpr ⟨hexpect, hstack⟩⟩
  | lead body token =>
      obtain ⟨hbody, htarget, hgives⟩ := hexpect
      simp only [State.step] at h
      split at h
      · cases h
        exact ⟨trivial, List.forall_mem_cons.mpr ⟨⟨hbody, htarget⟩, hstack⟩⟩
      · exact .afterStatement hbody hgives.statement hstack h
  | message opening receiver name =>
      obtain ⟨hreceiver, hname⟩ := hexpect
      have hnone : ∀ p ∈ ([] : List Part), p.tree.Gives .expression := List.forall_mem_nil _
      simp only [State.step] at h
      split at h <;> cases h
      · exact ⟨Tree.Gives.unary hreceiver hname, hstack⟩
      · refine ⟨trivial, List.forall_mem_cons.mpr ⟨⟨hreceiver, ?_, ?_, hnone, rfl⟩, hstack⟩⟩
        · simp
        · simpa using hname
      · next hkind =>
          refine ⟨⟨hreceiver, ?_, ?_, hnone, rfl⟩, hstack⟩
          · simpa using hname
          · simpa using ht.name hkind
  | keyword send =>
      simp only [State.step] at h
      split at h <;> cases h
      next hkind => exact ⟨hexpect.addKeyword (ht.name hkind), hstack⟩
  | colon send =>
      simp only [State.step] at h
      split at h <;> cases h
      exact ⟨trivial, List.forall_mem_cons.mpr ⟨hexpect, hstack⟩⟩
  | params head =>
      simp only [State.step] at h
      split at h <;> cases h
      · next hkind => exact ⟨hexpect.add (ht.name hkind), hstack⟩
      · exact ⟨hexpect, hstack⟩
  | paramMark head =>
      simp only [State.step] at h
      split at h <;> cases h
      · exact ⟨hexpect, hstack⟩
      · next hkind => exact ⟨hexpect.add (ht.name hkind), hstack⟩
      · exact ⟨hexpect, hstack⟩
  | brace head =>
      simp only [State.step] at h
      split at h <;> cases h
      exact ⟨⟨fun _ hhead => Option.some.inj hhead ▸ hexpect, List.forall_mem_nil _⟩, hstack⟩

/-- The tokens of a text lead from a proper state to a proper state. -/
theorem State.Proper.feed {s s' : State} (hs : s.Proper) {ts : List Token} (hts : ∀ t ∈ ts, t.Proper)
    (h : s.feed ts = some s') : s'.Proper := by
  induction ts generalizing s with
  | nil => exact Option.some.inj h ▸ hs
  | cons t ts ih =>
      obtain ⟨ht, hts⟩ := List.forall_mem_cons.mp hts
      rw [State.feed_cons] at h
      obtain ⟨s₁, hstep, hfeed⟩ := Option.bind_eq_some_iff.mp h
      exact ih (hs.step ht hstep) hts hfeed

theorem programStart_proper : State.programStart.Proper :=
  ⟨⟨by simp [OpenBody.start], List.forall_mem_nil _⟩, List.forall_mem_nil _⟩

theorem expressionStart_proper : State.expressionStart.Proper := ⟨trivial, List.forall_mem_nil _⟩

theorem gives_of_readExpression {text : String} {t : Tree} (h : readExpression text = .ok t) :
    t.Gives .expression := by
  obtain ⟨⟨expect, stack⟩, hfeed, hfinish⟩ := feed_of_readText h
  have hs := expressionStart_proper.feed (fun _ => proper_of_mem_scanFrom) hfeed
  simp only [State.expression?] at hfinish
  split at hfinish <;> cases hfinish
  exact hs.expect

theorem forall_gives_of_readProgram {text : String} {body : Body} (h : readProgram text = .ok body) :
    ∀ t ∈ body.statements, t.Gives .statement := by
  obtain ⟨⟨expect, stack⟩, hfeed, hfinish⟩ := feed_of_readText h
  obtain ⟨hexpect, hstack⟩ := programStart_proper.feed (fun _ => proper_of_mem_scanFrom) hfeed
  simp only [State.program?] at hfinish
  split at hfinish
  · split_ifs at hfinish
    cases hfinish
    exact forall_gives_map hexpect.done
  · split_ifs at hfinish
    cases hfinish
    obtain ⟨hbody, -, hgives⟩ := hexpect
    exact forall_gives_map (List.forall_mem_cons.mpr ⟨hgives.statement, hbody.done⟩)
  · split_ifs at hfinish
    cases hfinish
    obtain ⟨hbody, hlead⟩ := hstack _ List.mem_cons_self
    exact forall_gives_map (List.forall_mem_cons.mpr ⟨hlead.finish hexpect, hbody.done⟩)
  · cases hfinish

end Grammar

/-- An expression that was parsed is a proper expression. -/
theorem proper_of_parseExpression {text : String} {file : Option String} {n : Node}
    (h : parseExpression text file = .ok n) : n.Proper .expression := by
  rw [parseExpression, parseWith] at h
  split at h
  · next t hread => exact gives_of_readExpression hread file n h
  · cases h

theorem exists_of_parseProgram {text : String} {file : Option String} {n : Node}
    (h : parseProgram text file = .ok n) :
    ∃ body ns, readProgram text = .ok body ∧ Node.ofTrees file body.statements = .ok ns ∧
      n = .suite (body.span.map (⟨file, ·⟩)) .program ns := by
  rw [parseProgram, parseWith] at h
  split at h
  · next body hread =>
      rw [Node.ofBody] at h
      obtain ⟨ns, hns, h⟩ := exists_of_bind_eq_ok h
      cases h
      exact ⟨body, ns, hread, hns, rfl⟩
  · cases h

/-- A program that was parsed is a suite of proper statements. -/
theorem proper_of_parseProgram {text : String} {file : Option String} {n : Node}
    (h : parseProgram text file = .ok n) :
    ∃ origin statements, n = .suite origin .program statements ∧
      ∀ m ∈ statements, m.Proper .statement := by
  obtain ⟨body, ns, hread, hns, rfl⟩ := exists_of_parseProgram h
  exact ⟨_, ns, rfl, (forall_proper_of_ofTrees (forall_gives_of_readProgram hread) hns).2⟩

end Parley
