import GoBindings.Proofs.Alike
import GoBindings.Proofs.Within

/-!
# Files of runs within larger ones

A file that is generated in a run is generated in a larger run too. Its lines are the same, apart
from comments where these do not count.
-/

namespace GoBindings

open List Schema Go Setup Binder

variable {s : Schema} {exports : Exports} {part : Part} {ps : List Part}

section Shown

/-- Whether a line counts: any line, or one with code. -/
def Go.Line.counts (remarks : Bool) (l : Line) : Bool := remarks || l.isCode

def Go.Decl.shown (remarks : Bool) (ds : List Decl) : List Line :=
  (ds.flatMap Decl.lines).filter (Line.counts remarks)

variable {remarks : Bool}

@[simp] theorem Go.Decl.shown_append (ds ds' : List Decl) :
    Decl.shown remarks (ds ++ ds') = Decl.shown remarks ds ++ Decl.shown remarks ds' := by
  simp [Decl.shown]

theorem Go.Decl.shown_cons (d : Decl) (ds : List Decl) :
    Decl.shown remarks (d :: ds) =
      d.lines.filter (Line.counts remarks) ++ Decl.shown remarks ds := by
  simp [Decl.shown]

theorem Go.Decl.shown_comments (texts : List String) :
    Decl.shown remarks (texts.map Decl.comment) =
      (texts.map (Line.comment 0)).filter (Line.counts remarks) := by
  have hlines : (texts.map Decl.comment).flatMap Decl.lines = texts.map (Line.comment 0) := by
    rw [flatMap_map]
    exact (map_eq_flatMap ..).symm
  rw [Decl.shown, hlines]

theorem Go.Line.filter_comments (depth : Nat) (texts : List String) :
    (texts.map (Line.comment depth)).filter (Line.counts false) = [] := by
  rw [filter_eq_nil_iff, forall_mem_map]
  simp [Line.counts, Line.isCode, Line.comment, Lexeme.lineComment]

end Shown

/-- Parts that are the same apart from lines that do not count. -/
structure Part.Echoes (remarks : Bool) (p p' : Part) : Prop where
  shown : Decl.shown remarks p'.decls = Decl.shown remarks p.decls
  uses : p'.uses = p.uses
  inits : p'.inits = p.inits
  exports : p'.exports = p.exports
  indirect : p'.indirect = p.indirect

/-- A part whose exports and imports lead to entries. -/
structure Part.Closed (s : Schema) (p : Part) : Prop where
  exports : p.exports.Closed s
  indirect : ∀ file ∈ p.indirect, file.index < s.files.length

theorem Exports.Closed.append {new : Exports} (h : exports.Closed s) (hnew : new.Closed s) :
    Exports.Closed s (exports ++ new) := by
  intro e he
  rcases mem_append.mp he with he | he
  · exact h e he
  · exact hnew e he

namespace Part

variable {remarks : Bool} {p p' q q' : Part} {s : Schema}

theorem Echoes.refl (p : Part) : p.Echoes remarks p := ⟨rfl, rfl, rfl, rfl, rfl⟩

theorem Echoes.append (hp : p.Echoes remarks p') (hq : q.Echoes remarks q') :
    (p ++ q).Echoes remarks (p' ++ q') := by
  constructor
  · simp only [decls_append, Decl.shown_append, hp.shown, hq.shown]
  · simp only [uses_append, hp.uses, hq.uses]
  · simp only [inits_append, hp.inits, hq.inits]
  · simp only [exports_append, hp.exports, hq.exports]
  · simp only [indirect_append, hp.indirect, hq.indirect]

theorem Echoes.concat {ps' : List Part} (h : Forall₂ (Echoes remarks) ps ps') :
    (Part.concat ps).Echoes remarks (Part.concat ps') := by
  induction h with
  | nil => exact .refl _
  | cons hp _ ih => exact hp.append ih

theorem Closed.append (hp : p.Closed s) (hq : q.Closed s) : (p ++ q).Closed s := by
  refine ⟨hp.exports.append hq.exports, ?_⟩
  intro file hfile
  rcases mem_append.mp hfile with hfile | hfile
  · exact hp.indirect file hfile
  · exact hq.indirect file hfile

theorem Closed.of_nil (hexports : p.exports = []) (hindirect : p.indirect = []) : p.Closed s := by
  constructor
  · simp [Exports.Closed, hexports]
  · simp [hindirect]

theorem Closed.additive : Additive (Closed s) := ⟨.of_nil rfl rfl, .append⟩

end Part

namespace Binder

namespace Within

variable {remarks : Bool} {b b' : Binder}

section Parts

variable (h : b.Within remarks b')
variable {part : Part} {m : MessageNode}

variable {plan : MessagePlan} {type : String} {id : MessageId}

include h

theorem commentAt (hremarks : remarks = true) (path : List Nat) :
    b'.commentAt path = b.commentAt path := by
  have hcomments : b'.node.comments = b.node.comments := by
    rw [Binder.node, h.file]
    exact h.setup.comments hremarks b.file h.file_lt
  rw [Binder.commentAt, Binder.commentAt, hcomments]

theorem comments (depth : Nat) (path : List Nat) :
    ((b'.commentAt path).map (Line.comment depth)).filter (Line.counts remarks) =
      ((b.commentAt path).map (Line.comment depth)).filter (Line.counts remarks) := by
  cases remarks with
  | false => rw [Line.filter_comments, Line.filter_comments]
  | true => rw [h.commentAt rfl]

theorem descriptorFunc : b'.descriptorFunc = b.descriptorFunc := by
  have hvar := h.node FileNode.varName fun _ => rfl
  funext receiver name path
  rw [Binder.descriptorFunc, Binder.descriptorFunc, hvar]

theorem constantEntries (node : EnumNode) (type : String) (i : Nat)
    (values : List Descriptor.EnumValue) :
    ((b'.constantEntries node type i values).map ConstEntry.line).filter (Line.counts remarks) =
      ((b.constantEntries node type i values).map ConstEntry.line).filter
        (Line.counts remarks) := by
  induction values generalizing i with
  | nil => rfl
  | cons v vs ih =>
    have hcomments := h.comments 1 (node.path ++ [2, i])
    simp only [Binder.constantEntries, map_append, map_cons, map_map,
      filter_append, filter_cons, ih]
    exact congrArg (· ++ _) hcomments

theorem enumPart {id : EnumId} (hid : b.schema.hasObject (.enum id) = true) :
    (b.enumPart id).Echoes remarks (b'.enumPart id) := by
  have henum : b'.schema.enum id = b.schema.enum id := h.setup.enum hid
  have hpackage : (b'.schema.file (b.schema.enum id).file).package =
      (b.schema.file (b.schema.enum id).file).package :=
    h.setup.file FileNode.package (fun _ => rfl) (h.closed.fileOf_lt hid)
  have hstring : b'.enumStringFunc = b.enumStringFunc := h.ofSupport enumStringFunc fun _ => rfl
  have hunmarshal : b'.enumUnmarshalFunc = b.enumUnmarshalFunc :=
    h.ofSupport enumUnmarshalFunc fun _ => rfl
  have hconstants (type : String) (values : List Descriptor.EnumValue) :
      (Decl.lines (.constants (b'.constantEntries (b.schema.enum id) type 0 values))).filter
          (Line.counts remarks) =
        (Decl.lines (.constants (b.constantEntries (b.schema.enum id) type 0 values))).filter
          (Line.counts remarks) := by
    simp only [Decl.lines, filter_cons, filter_append, h.constantEntries]
  refine ⟨?_, by simp only [Binder.enumPart, h.proto], rfl, by simp only [Binder.enumPart, henum],
    rfl⟩
  simp only [Binder.enumPart, enumDecls, henum, hpackage, hstring, hunmarshal, h.descriptorFunc,
    Decl.shown_append, Decl.shown_cons, Decl.shown_comments, h.comments, hconstants]

omit h in
theorem enumPart_closed (id : EnumId) : (b.enumPart id).Closed s := by
  refine ⟨?_, by simp [Binder.enumPart]⟩
  intro e he
  obtain ⟨x, hx, rfl⟩ := mem_map.mp he
  rcases mem_cons.mp hx with rfl | hx
  · simp [Symbol.targets]
  · obtain ⟨v, -, rfl⟩ := mem_map.mp hx
    simp [Symbol.targets]

theorem unionMembers (m : MessageNode) (plan : MessagePlan) (union : UnionPlan) (i : Nat) :
    ((b'.unionMembers m plan union i).map Member.line).filter (Line.counts remarks) =
      ((b.unionMembers m plan union i).map Member.line).filter (Line.counts remarks) := by
  have hhead (texts : List String) : (if (texts.map Member.comment).isEmpty then []
      else texts.map Member.comment ++ [Member.comment ""]).map Member.line =
        (if texts.isEmpty then [] else texts ++ [""]).map (Line.comment 1) := by
    cases texts with
    | nil => rfl
    | cons text texts => simp [Member.line]
  cases remarks with
  | true => simp only [unionMembers, h.commentAt rfl]
  | false =>
    simp only [unionMembers, map_append, filter_append, hhead,
      Line.filter_comments]

theorem fieldMembers {seen : List Nat} {i : Nat} {ps : List FieldPlan} {members : List Member}
    (hm : b.fieldMembers m plan seen i ps = .ok members) :
    ∃ members', b'.fieldMembers m plan seen i ps = .ok members' ∧
      (members'.map Member.line).filter (Line.counts remarks) =
        (members.map Member.line).filter (Line.counts remarks) := by
  induction ps generalizing seen i members with
  | nil => exact ⟨members, hm, rfl⟩
  | cons p ps ih =>
    rw [Binder.fieldMembers] at hm ⊢
    cases honeof : p.oneof with
    | none =>
      simp only [honeof, steps_eq_ok] at hm ⊢
      obtain ⟨rest, hrest, rfl⟩ := hm
      obtain ⟨rest', hrest', hsame⟩ := ih hrest
      refine ⟨_, ⟨rest', hrest', rfl⟩, ?_⟩
      have hcomments := h.comments 1 (m.path ++ [2, i])
      simp only [map_append, map_cons, map_map, filter_append,
        filter_cons, hsame]
      exact congrArg (· ++ _) hcomments
    | some oi =>
      simp only [honeof] at hm ⊢
      by_cases hseen : seen.contains oi = true
      · rw [if_pos hseen] at hm ⊢
        exact ih hm
      · rw [if_neg hseen] at hm ⊢
        simp only [steps_eq_ok] at hm ⊢
        obtain ⟨union, hunion, rest, hrest, rfl⟩ := hm
        obtain ⟨rest', hrest', hsame⟩ := ih hrest
        refine ⟨_, ⟨union, hunion, rest', hrest', rfl⟩, ?_⟩
        simp only [map_append, filter_append, hsame, h.unionMembers]

theorem structDecl {struct : Decl} (hs : b.structDecl m type plan = .ok struct) :
    ∃ struct', b'.structDecl m type plan = .ok struct' ∧
      struct'.lines.filter (Line.counts remarks) = struct.lines.filter (Line.counts remarks) := by
  simp only [Binder.structDecl, steps_eq_ok, h.proto] at hs ⊢
  obtain ⟨members, hmembers, rfl⟩ := hs
  obtain ⟨members', hmembers', hsame⟩ := h.fieldMembers hmembers
  refine ⟨_, ⟨members', hmembers', rfl⟩, ?_⟩
  simp only [Decl.lines, map_append, filter_cons, filter_append, hsame]

theorem messageFuncs (hm : m ∈ b.schema.messages) (type : String) :
    b'.messageFuncs m type = b.messageFuncs m type := by
  have hpackage : (b'.schema.file m.file).package = (b.schema.file m.file).package :=
    h.setup.file FileNode.package (fun _ => rfl) (h.closed.messages m hm).1
  simp only [Binder.messageFuncs, h.proto, hpackage, h.descriptorFunc]

theorem registerMessage (hm : m ∈ b.schema.messages) (type : String) :
    b'.registerMessage m type = b.registerMessage m type := by
  have hpackage : (b'.schema.file m.file).package = (b.schema.file m.file).package :=
    h.setup.file FileNode.package (fun _ => rfl) (h.closed.messages m hm).1
  simp only [Binder.registerMessage, h.proto, hpackage]

theorem messagePart (hid : b.schema.hasObject (.message id) = true)
    (hp : b.messagePart id = .ok part) :
    ∃ part', b'.messagePart id = .ok part' ∧ part.Echoes remarks part' := by
  have hm := Closed.message_mem hid
  have hextensions : b'.extensionDecls = b.extensionDecls :=
    h.ofSupport extensionDecls fun _ => rfl
  obtain ⟨-, -, -, -, hlisted⟩ := h.closed.messages _ hm
  have htail {p p' : Part} (hpart : p.Echoes remarks p') (q₁ q₂ q₃ q₄ q₅ q₆ q₇ : Part) :
      (p ++ q₁ ++ q₂ ++ q₃ ++ q₄ ++ q₅ ++ q₆ ++ q₇).Echoes remarks
        (p' ++ q₁ ++ q₂ ++ q₃ ++ q₄ ++ q₅ ++ q₆ ++ q₇) :=
    ((((((hpart.append (.refl _)).append (.refl _)).append (.refl _)).append (.refl _)).append
      (.refl _)).append (.refl _)).append (.refl _)
  have hhead {struct struct' : Decl} {ds : List Decl} {uses : List String}
      (hlines : struct'.lines.filter (Line.counts remarks) =
        struct.lines.filter (Line.counts remarks)) (path : List Nat) :
      Part.Echoes remarks
        { decls := (b.commentAt path).map Decl.comment ++ [struct] ++ ds, uses }
        { decls := (b'.commentAt path).map Decl.comment ++ [struct'] ++ ds, uses } := by
    refine ⟨?_, rfl, rfl, rfl, rfl⟩
    simp only [Decl.shown_append, Decl.shown_comments, Decl.shown_cons, h.comments, hlines]
  have hdefault {type : String} {ps : List FieldPlan} {ds : List (Option DefaultPlan)}
      (hds : ps.mapM (b.planDefault type) = .ok ds) : ps.mapM (b'.planDefault type) = .ok ds :=
    mapM_of_mapM hds fun p _ d hd => h.planDefault hd
  have hgetter {type : String} {unions : List (Option UnionPlan)}
      {ps : List (FieldPlan × Option DefaultPlan)} {gs : List (Part × Option GetterSymbol)}
      (hgs : ps.mapM (fun p => b.getterPart (b.schema.message id) type unions p.1 p.2) = .ok gs) :
      ps.mapM (fun p => b'.getterPart (b.schema.message id) type unions p.1 p.2) = .ok gs :=
    mapM_of_mapM hgs fun p _ g hg => h.getterPart hg
  have hextension {ps : List Part}
      (hps : (b.schema.message id).extensions.mapM b.extensionPart = .ok ps) :
      (b.schema.message id).extensions.mapM b'.extensionPart = .ok ps :=
    mapM_of_mapM hps fun x hx p hp => h.extensionPart (hlisted x hx) hp
  cases honeofs : (b.schema.message id).proto.oneofs.isEmpty with
  | true =>
    simp only [Binder.messagePart, h.message hid, h.proto, hextensions, h.messageFuncs hm,
      h.registerMessage hm, honeofs, Bool.not_true, Bool.false_eq_true, if_false,
      steps_eq_ok] at hp ⊢
    obtain ⟨plan, hplan, struct, hstruct, defaults, hdefaults, types, rfl, getters, hgetters, funcs,
      rfl, extensions, hparts, rfl⟩ := hp
    obtain ⟨struct', hstruct', hlines⟩ := h.structDecl hstruct
    refine ⟨_, ⟨plan, h.planMessage hid hplan, struct', hstruct', defaults, hdefault hdefaults, [],
      rfl, getters, hgetter hgetters, {}, rfl, extensions, hextension hparts, rfl⟩, ?_⟩
    simpa only [append_assoc] using htail (hhead hlines _) _ _ _ _ _ _ _
  | false =>
    simp only [Binder.messagePart, h.message hid, h.proto, hextensions, h.messageFuncs hm,
      h.registerMessage hm, h.unionPart, honeofs, Bool.not_false, if_true, steps_eq_ok] at hp ⊢
    obtain ⟨plan, hplan, struct, hstruct, defaults, hdefaults, types, htypes, getters, hgetters,
      funcs, hfuncs, extensions, hparts, rfl⟩ := hp
    obtain ⟨struct', hstruct', hlines⟩ := h.structDecl hstruct
    refine ⟨_, ⟨plan, h.planMessage hid hplan, struct', hstruct', defaults, hdefault hdefaults,
      types, htypes, getters, hgetter hgetters, funcs, hfuncs, extensions, hextension hparts, rfl⟩,
      ?_⟩
    simpa only [append_assoc] using htail (hhead hlines _) _ _ _ _ _ _ _

omit h in
theorem extensionPart_closed {id : ExtensionId} (hp : b.extensionPart id = .ok part) :
    part.Closed s := by
  simp only [Binder.extensionPart, steps_eq_ok] at hp
  obtain ⟨-, -, -, -, -, -, -, -, -, -, rfl⟩ := hp
  constructor <;> simp [Exports.Closed, Symbol.targets]

theorem messagePart_closed (hp : b.messagePart id = .ok part) : part.Closed b.schema := by
  obtain ⟨e⟩ := messagePart_eq_ok hp
  have hdefaults : ∀ p ∈ e.defaults.flatMap fun d => d.toList.map (defaultPart id),
      p.Closed b.schema := by
    intro p hp
    obtain ⟨d, -, hp⟩ := mem_flatMap.mp hp
    obtain ⟨d, -, rfl⟩ := mem_map.mp hp
    constructor <;> simp [Exports.Closed, defaultPart, Symbol.targets]
  have hgetters : ∀ p ∈ e.getters.map (·.1), p.Closed b.schema := by
    intro p hp
    obtain ⟨g, hg, rfl⟩ := mem_map.mp hp
    obtain ⟨x, -, hx⟩ := exists_of_mem_mapM e.hgetters hg
    simp only [Binder.getterPart, steps_eq_ok] at hx
    obtain ⟨-, -, -, -, rfl⟩ := hx
    exact .of_nil rfl rfl
  have hsymbols : Part.Closed b.schema
      { exports := messageExports id (b.schema.message id)
          (b.messageType id) (e.getters.filterMap (·.2)) } := by
    refine ⟨?_, by simp⟩
    intro x hx target htarget
    simp only [messageExports] at hx
    split at hx
    · cases hx
    · obtain rfl := mem_singleton.mp hx
      obtain ⟨symbol, hsymbol, htarget⟩ := mem_flatMap.mp htarget
      obtain ⟨g, hg, hshape⟩ := mem_filterMap.mp hsymbol
      obtain ⟨⟨p, d⟩, hpd, hx⟩ := exists_of_mem_mapM e.hgetters hg
      simp only [Binder.getterPart, steps_eq_ok] at hx
      obtain ⟨shape, hshape', body, hbody, rfl⟩ := hx
      obtain ⟨shape, rfl, rfl⟩ := Option.map_eq_some_iff.mp hshape
      have hp := h.planMessage_targets e.hplan p (of_mem_zip hpd).1
      exact h.getterShape?_targets hp hshape' target htarget
  have hfuncs : e.funcs.Closed b.schema := by
    rcases e.hfuncs with ⟨-, hnone⟩ | ⟨-, hfuncs⟩
    · rw [hnone]
      exact .of_nil rfl rfl
    · simp only [Binder.unionPart, steps_eq_ok] at hfuncs
      obtain ⟨reader, hreader, hfuncs⟩ := hfuncs
      rw [← hfuncs]
      exact .of_nil rfl rfl
  have hP : Part.Additive (Part.Closed b.schema) := Part.Closed.additive
  rw [e.hpart]
  exact (((((((Part.Closed.of_nil rfl rfl).append (hP.concat hdefaults)).append
    (.of_nil rfl rfl)).append (hP.concat hgetters)).append hsymbols).append hfuncs).append
    (hP.concat_mapM e.hextensions fun x _ p hx => extensionPart_closed hx)).append
    (.of_nil rfl rfl)

theorem getterForward_closed {remote : TypeExpr} {getter : GetterSymbol}
    (hg : ∀ target ∈ getter.shape.targets, b.schema.hasObject target = true)
    (hp : b.getterForward type remote getter = .ok part) : part.Closed b.schema := by
  have hlocal {target : Object} (ho : b.schema.hasObject target = true) {name : TypeExpr × Part}
      (hn : b.localName target = .ok name) : name.2.Closed b.schema := by
    rcases localName_eq_ok hn with ⟨own, -, -, hpart⟩ | ⟨object, indirect, -, hpart, hindirect, -⟩
    · rw [hpart]
      exact .of_nil rfl rfl
    · rw [hpart]
      refine ⟨by simp [Exports.Closed], ?_⟩
      intro file hfile
      rw [hindirect file hfile]
      exact h.closed.fileOf_lt ho
  unfold Binder.getterForward at hp
  cases hshape : getter.shape with
  | plain t =>
    simp only [hshape] at hp
    cases hp
    exact .of_nil rfl rfl
  | named target pointer repeated | map key target pointer =>
    simp only [hshape, steps_eq_ok] at hp
    obtain ⟨name, hname, rfl⟩ := hp
    have ho := hg target (by simp [hshape, GetterShape.targets])
    exact (hlocal ho hname).append (.of_nil rfl rfl)

theorem symbolForward_closed {package : String} {x : Symbol}
    (hx : ∀ target ∈ x.targets, b.schema.hasObject target = true)
    (hp : b.symbolForward package x = .ok part) : part.Closed b.schema := by
  cases x with
  | message m =>
    simp only [Binder.symbolForward, messageForward, steps_eq_ok] at hp
    obtain ⟨getters, hgetters, rfl⟩ := hp
    refine Part.Closed.append (.of_nil rfl rfl)
      (Part.Closed.additive.concat_mapM hgetters fun g hg part hpart => ?_)
    apply h.getterForward_closed _ hpart
    intro target htarget
    exact hx target (mem_flatMap.mpr ⟨g, hg, htarget⟩)
  | enum name proto3 | value sort name cast =>
    cases hp
    exact .of_nil rfl rfl

theorem forwardPart_closed {id : ReexportId} (hp : b.forwardPart id = .ok part) :
    part.Closed b.schema := by
  simp only [Binder.forwardPart] at hp
  split at hp
  · cases hp
    exact .of_nil rfl rfl
  · simp only [steps_eq_ok] at hp
    obtain ⟨package, -, symbols, hsymbols, rfl⟩ := hp
    refine (Part.Closed.append (.of_nil rfl rfl) (Part.Closed.additive.concat_mapM hsymbols
      fun x hx part hpart => ?_)).append (.of_nil rfl rfl)
    obtain ⟨e, he, rfl⟩ := mem_map.mp hx
    exact h.symbolForward_closed (h.targets e (mem_of_mem_filter he)) hpart

theorem versionPart : b'.versionPart = b.versionPart := by
  have hindex := h.node FileNode.index fun _ => rfl
  simp only [Binder.versionPart, h.proto, hindex]

theorem declaredMessages : b'.declaredMessages = b.declaredMessages := by
  have hmessages := (h.closed.files _ (Closed.file_mem h.file_lt)).2.1
  rw [Binder.declaredMessages, h.node FileNode.messages fun _ => rfl]
  apply filter_congr
  intro id hid
  rw [h.message (hmessages id hid)]

theorem declarations (hp : b.declarations = .ok part) :
    part.Closed b.schema ∧ ∃ part', b'.declarations = .ok part' ∧ part.Echoes remarks part' := by
  obtain ⟨-, hmessages, henums, hextensions, hreexports⟩ :=
    h.closed.files _ (Closed.file_mem h.file_lt)
  obtain ⟨e⟩ := declarations_eq_ok hp
  constructor
  · have hversion : b.versionPart.Closed b.schema := by
      rw [Binder.versionPart]
      split <;> exact .of_nil rfl rfl
    exact declarations_induct Part.Closed.additive hversion
      (fun _ _ _ hp => h.forwardPart_closed hp) (fun id _ => enumPart_closed id)
      (fun _ _ _ hp => h.messagePart_closed hp)
      (fun _ _ _ hp => extensionPart_closed hp) hp
  · have hforwards : b'.node.reexports.mapM b'.forwardPart = .ok e.forwards := by
      rw [h.node FileNode.reexports fun _ => rfl, ← e.hforwards]
      exact mapM_congr fun id hid => h.forwardPart (hreexports id hid)
    have hextension : b'.node.extensions.mapM b'.extensionPart = .ok e.extensions := by
      rw [h.node FileNode.extensions fun _ => rfl]
      exact mapM_of_mapM e.hextensions fun id hid p hp => h.extensionPart (hextensions id hid) hp
    obtain ⟨messages', hmessages', hsame⟩ := mapM_follows e.hmessages fun id hid p hp =>
      h.messagePart (hmessages id (mem_filter.mp hid).1) hp
    have henum : Forall₂ (Part.Echoes remarks) (b.node.enums.map b.enumPart)
        (b'.node.enums.map b'.enumPart) := by
      rw [h.node FileNode.enums fun _ => rfl, forall₂_map_left_iff, forall₂_map_right_iff,
        forall₂_same]
      exact fun id hid => h.enumPart (henums id hid)
    rw [e.hpart]
    refine ⟨_, ?_, ((Part.Echoes.append (.append (.refl _) (.refl _)) (.concat henum)).append
      (.concat hsame)).append (.refl _)⟩
    simp only [Binder.declarations, hforwards, h.declaredMessages, hmessages', hextension,
      h.versionPart]
    rfl

end Parts

section Files

variable (h : b.Within remarks b')
variable {indirect : List FileId}

include h

theorem registerEnum (node : EnumNode) : b'.registerEnum node = b.registerEnum node := by
  have hpackage := h.node FileNode.package fun _ => rfl
  simp only [Binder.registerEnum, h.proto, hpackage]

theorem initPart (inits : List Simple) : b'.initPart inits = b.initPart inits := by
  obtain ⟨-, hmessages, henums, hextensions, -⟩ :=
    h.closed.files _ (Closed.file_mem h.file_lt)
  have hnested : b'.node.messages.flatMap (fun id => (b'.schema.message id).extensions) =
      b.node.messages.flatMap fun id => (b.schema.message id).extensions := by
    rw [h.node FileNode.messages fun _ => rfl]
    apply flatMap_congr
    intro id hid
    rw [h.message (hmessages id hid)]
  have hall : b'.allExtensions = b.allExtensions := by
    rw [allExtensions, allExtensions, hnested, h.node FileNode.extensions fun _ => rfl]
  have henum : b'.node.enums.map (fun id => b'.registerEnum (b'.schema.enum id)) =
      b.node.enums.map fun id => b.registerEnum (b.schema.enum id) := by
    rw [h.node FileNode.enums fun _ => rfl]
    apply map_congr_left
    intro id hid
    have hnode : b'.schema.enum id = b.schema.enum id := h.setup.enum (henums id hid)
    rw [hnode, h.registerEnum]
  have hextension : b.allExtensions.map (fun id => b'.registerExtension (b'.schema.extension id)) =
      b.allExtensions.map fun id => b.registerExtension (b.schema.extension id) := by
    apply map_congr_left
    intro id hid
    have hobject : b.schema.hasObject (.extension id) = true := by
      rcases mem_append.mp hid with hid | hid
      · obtain ⟨m, hm, hid⟩ := mem_flatMap.mp hid
        exact (h.closed.messages _ (Closed.message_mem (hmessages m hm))).2.2.2.2 id hid
      · exact hextensions id hid
    have hnode : b'.schema.extension id = b.schema.extension id := h.setup.extension hobject
    rw [hnode, registerExtension, registerExtension, h.proto]
  simp only [Binder.initPart, hall, henum, hextension, h.proto]

theorem embeddedDecls : b'.embeddedDecls = b.embeddedDecls := by
  have hname := h.node FileNode.name fun _ => rfl
  have hvar := h.node FileNode.varName fun _ => rfl
  have hproto := h.node (fun f => { f.proto with sourceInfo := none }) fun _ => rfl
  simp only [Binder.embeddedDecls, embeddedBytes, strippedProto, h.proto, hname, hvar, hproto,
    h.setup.compress]

theorem bodyDecls {part' : Part} (hpart : part.Echoes remarks part') :
    Decl.shown remarks (b'.bodyDecls part') = Decl.shown remarks (b.bodyDecls part) ∧
      b'.bodyUses part' = b.bodyUses part := by
  have hall : (part ++ b.initPart part.inits).Echoes remarks
      (part' ++ b'.initPart part'.inits) := by
    rw [hpart.inits, h.initPart]
    exact hpart.append (.refl _)
  constructor
  · rw [Binder.bodyDecls, Binder.bodyDecls, Decl.shown_append, Decl.shown_append, hall.shown,
      h.embeddedDecls]
  · rw [bodyUses, bodyUses, h.proto, hall.uses]

theorem packageDoc (hremarks : remarks = true) : b'.packageDoc = b.packageDoc := by
  have hcomments : b'.node.comments = b.node.comments := by
    rw [Binder.node, h.file]
    exact h.setup.comments hremarks b.file h.file_lt
  have hnames : b.setup.generated.map (fun id => "\t" ++ (b'.schema.file id).name) =
      b.setup.generated.map fun id => "\t" ++ (b.schema.file id).name := by
    apply map_congr_left
    intro id hid
    have hname : (b'.schema.file id).name = (b.schema.file id).name :=
      h.setup.file FileNode.name (fun _ => rfl) (h.setup.listed id hid)
    rw [hname]
  have htop : b.setup.generated.flatMap b'.topLevelMessages =
      b.setup.generated.flatMap b.topLevelMessages := by
    apply flatMap_congr
    intro file hfile
    obtain ⟨-, hmessages, -⟩ :=
      h.closed.files _ (Closed.file_mem (h.setup.listed file hfile))
    have hlist : (b'.schema.file file).messages = (b.schema.file file).messages :=
      h.setup.file FileNode.messages (fun _ => rfl) (h.setup.listed file hfile)
    have hfilter : ((b.schema.file file).messages.filter fun id =>
        (b'.schema.message id).parent.isNone) =
          (b.schema.file file).messages.filter fun id => (b.schema.message id).parent.isNone := by
      apply filter_congr
      intro id hid
      rw [h.message (hmessages id hid)]
    rw [topLevelMessages, hlist, hfilter]
    apply map_congr_left
    intro id hid
    rw [h.message (hmessages id (mem_of_mem_filter hid))]
  simp only [Binder.packageDoc, hcomments, h.setup.packageName, h.setup.generated, hnames, htop]

theorem headerDecls : Decl.shown remarks b'.headerDecls = Decl.shown remarks b.headerDecls := by
  have hname := h.node FileNode.name fun _ => rfl
  have hindex := h.node FileNode.index fun _ => rfl
  have hdoc : (Decl.blockComment b'.packageDoc).lines.filter (Line.counts remarks) =
      (Decl.blockComment b.packageDoc).lines.filter (Line.counts remarks) := by
    cases remarks with
    | true => rw [h.packageDoc rfl]
    | false => simp [Decl.lines, Line.counts, Line.isCode]
  simp only [Binder.headerDecls, hname, hindex, h.setup.packageName, Decl.shown_append]
  split
  · simp only [Decl.shown_cons, hdoc]
  · rfl

theorem importPath (name : String) {dependency : FileId}
    (hdependency : dependency.index < b.schema.files.length) :
    b'.importPath name dependency = b.importPath name dependency := by
  have hfile : (b'.schema.file dependency).goFileName = (b.schema.file dependency).goFileName :=
    h.setup.file FileNode.goFileName (fun _ => rfl) hdependency
  rw [Binder.importPath, Binder.importPath, h.setup.parameters, hfile]

theorem dependencyImports (isUsed : String → Bool) :
    b'.dependencyImports isUsed = b.dependencyImports isUsed := by
  have hdependencies := (h.closed.files _ (Closed.file_mem h.file_lt)).1
  have hnames := h.node (fun f => f.proto.dependencies) fun _ => rfl
  have hweak := h.node FileNode.isWeakDependency fun _ => rfl
  have hentries : ((b.node.proto.dependencies.zip b.node.dependencies).zipIdx.mapM
      fun x => b'.dependencyImport isUsed x.2 x.1.1 x.1.2) =
        (b.node.proto.dependencies.zip b.node.dependencies).zipIdx.mapM
          fun x => b.dependencyImport isUsed x.2 x.1.1 x.1.2 := by
    apply mapM_congr
    rintro ⟨⟨name, id⟩, i⟩ hmem
    have hid : id.index < b.schema.files.length :=
      hdependencies id (of_mem_zip (fst_mem_of_mem_zipIdx hmem)).2
    simp only [dependencyImport, h.setup.packages id hid, h.importPath name hid, hweak,
      h.setup.packageName]
  simp only [Binder.dependencyImports, hnames, h.node FileNode.dependencies fun _ => rfl, hentries]

theorem indirectImports (hindirect : ∀ file ∈ indirect, file.index < b.schema.files.length) :
    b'.indirectImports indirect = b.indirectImports indirect := by
  have hfiles : b'.schema.fileIds.filter indirect.contains =
      b.schema.fileIds.filter indirect.contains := by
    obtain ⟨later, hlater, hbound⟩ := h.setup.fileIds
    have hids : b'.schema.fileIds = b.schema.fileIds ++ later := hlater
    have hnone : later.filter indirect.contains = [] := by
      rw [filter_eq_nil_iff]
      intro file hfile hcontains
      have hlt := hindirect file (by simpa using hcontains)
      exact absurd (hbound file hfile) (Nat.not_le.mpr hlt)
    rw [hids, filter_append, hnone, append_nil]
  have hentries : (b.schema.fileIds.filter indirect.contains).mapM b'.indirectImport =
      (b.schema.fileIds.filter indirect.contains).mapM b.indirectImport := by
    apply mapM_congr
    intro file hfile
    have hid := hindirect file (by simpa using (mem_filter.mp hfile).2)
    have hname : (b'.schema.file file).name = (b.schema.file file).name :=
      h.setup.file FileNode.name (fun _ => rfl) hid
    simp only [indirectImport, h.setup.packages file hid, h.importPath _ hid, h.setup.packageName,
      h.node FileNode.dependencies fun _ => rfl, hname]
  simp only [Binder.indirectImports, hfiles, hentries]

theorem supportImports (isUsed : String → Bool) :
    b'.supportImports isUsed = b.supportImports isUsed := by
  have hsupport : ∀ name, b'.setup.packages.supportName name = b.setup.packages.supportName name :=
    fun name => h.setup.supportName name
  have hpath : ∀ package, b'.setup.packages.supportImportPath? package =
      b.setup.packages.supportImportPath? package := by
    intro package
    rw [PackageNames.supportImportPath?, PackageNames.supportImportPath?, h.setup.support]
  simp only [Binder.supportImports, hsupport, hpath, h.setup.parameters]

theorem importDecls (isUsed : String → Bool)
    (hindirect : ∀ file ∈ indirect, file.index < b.schema.files.length) :
    b'.importDecls isUsed indirect = b.importDecls isUsed indirect := by
  simp only [Binder.importDecls, h.supportImports, h.dependencyImports, h.indirectImports hindirect]

theorem sourceLines {imports : List Decl} (hpart : b.declarations = .ok part)
    (himports : b.importDecls (fun package => decide (package ∈ b.bodyUses part)) part.indirect =
      .ok imports) :
    ∃ part', b'.declarations = .ok part' ∧ part'.exports = part.exports ∧
      b'.importDecls (fun package => decide (package ∈ b'.bodyUses part')) part'.indirect =
        .ok imports ∧
      (b'.sourceLines part' imports).filter (Line.counts remarks) =
        (b.sourceLines part imports).filter (Line.counts remarks) := by
  obtain ⟨hclosed, part', hpart', hechoes⟩ := h.declarations hpart
  obtain ⟨hbody, huses⟩ := h.bodyDecls hechoes
  refine ⟨part', hpart', hechoes.exports, ?_, ?_⟩
  · rw [huses, hechoes.indirect, h.importDecls _ hclosed.indirect, himports]
  · have hhead : Decl.shown remarks (b'.headerDecls ++ imports) =
        Decl.shown remarks (b.headerDecls ++ imports) := by
      rw [Decl.shown_append, Decl.shown_append, h.headerDecls]
    rw [Binder.sourceLines, Binder.sourceLines, filter_append, filter_append,
      filter_cons, filter_cons]
    show Decl.shown remarks _ ++ (if _ then _ :: Decl.shown remarks _ else Decl.shown remarks _) = _
    rw [hhead, hbody]
    rfl

theorem isGenerated : b'.setup.isGenerated b'.file = b.setup.isGenerated b.file := by
  rw [Setup.isGenerated, Setup.isGenerated, h.setup.generated, h.file]

end Files

end Within

theorem Within.sameOutput {b b' : Binder} (h : b.Within true b') {out : List GeneratedFile}
    (hout : b.output = .ok out) : b'.output = .ok out := by
  cases hgenerated : b.setup.isGenerated b.file with
  | false =>
    obtain ⟨⟨part, hpart⟩, rfl⟩ := (output_skipped hgenerated).mp hout
    obtain ⟨-, part', hpart', -⟩ := h.declarations hpart
    exact (output_skipped (h.isGenerated.trans hgenerated)).mpr ⟨⟨part', hpart'⟩, rfl⟩
  | true =>
    obtain ⟨part, imports, text, hpart, himports, hformat, rfl⟩ := (output_eq_ok hgenerated).mp hout
    obtain ⟨part', hpart', -, himports', hlines⟩ := h.sourceLines hpart himports
    have hall (ls : List Line) : ls.filter (Line.counts true) = ls :=
      filter_eq_self.mpr fun _ _ => rfl
    rw [hall, hall] at hlines
    refine (output_eq_ok (h.isGenerated.trans hgenerated)).mpr
      ⟨part', imports, text, hpart', himports', hlines ▸ hformat, ?_⟩
    rw [h.node FileNode.goFileName fun _ => rfl]

end Binder

/-- Two runs over the same files, one of which has all that the other one has: what holds of the
results of each file in both holds of the results of the runs. -/
theorem Setup.Within.binders {remarks : Bool} {s s' : Setup} (h : s.Within remarks s')
    {R : List GeneratedFile → List GeneratedFile → Prop} {files : List FileId}
    (hfiles : ∀ file ∈ files, file.index < s.schema.files.length)
    (hexports : exports.Closed s.schema)
    (hstep : ∀ b ∈ s.binders exports files, ∀ b' ∈ s'.binders exports files, b.Within remarks b' →
      ∀ out, b.output = .ok out → ∃ out', b'.output = .ok out' ∧ R out out')
    {outs : List (List GeneratedFile)}
    (houts : (s.binders exports files).mapM output = .ok outs) :
    ∃ outs', (s'.binders exports files).mapM output = .ok outs' ∧
      Forall₂ R outs outs' := by
  induction files generalizing exports outs with
  | nil =>
    cases houts
    exact ⟨[], rfl, .nil⟩
  | cons file files ih =>
    rw [forall_mem_cons] at hfiles
    have hwithin : (Binder.mk s file exports).Within remarks ⟨s', file, exports⟩ :=
      ⟨h, rfl, hfiles.1, rfl, hexports⟩
    simp only [binders, mapM_cons, steps_eq_ok] at houts
    obtain ⟨out, hout, rest, hrest, rfl⟩ := houts
    obtain ⟨out', hout', hR⟩ := hstep ⟨s, file, exports⟩ (by simp [binders])
      ⟨s', file, exports⟩ (by simp [binders]) hwithin out hout
    obtain ⟨o, ho, -⟩ := map_eq_ok.mp hout
    obtain ⟨part, hpart, -⟩ := outcome_eq_ok ho
    obtain ⟨hclosed, part', hpart', hechoes⟩ := hwithin.declarations hpart
    simp only [hpart] at hrest
    have hmem (b : Binder) (hb : b ∈ s.binders (exports ++ part.exports) files) :
        b ∈ s.binders exports (file :: files) := by
      simp [binders, hpart, hb]
    have hmem' (b : Binder) (hb : b ∈ s'.binders (exports ++ part.exports) files) :
        b ∈ s'.binders exports (file :: files) := by
      simp [binders, hpart', hechoes.exports, hb]
    obtain ⟨rest', hrest', hall⟩ := ih hfiles.2 (hexports.append hclosed.exports)
      (fun b hb b' hb' => hstep b (hmem b hb) b' (hmem' b' hb')) hrest
    refine ⟨out' :: rest', ?_, hall.cons hR⟩
    simp only [binders, mapM_cons, hout', hpart', hechoes.exports, hrest']
    rfl

end GoBindings
