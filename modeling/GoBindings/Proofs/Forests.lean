import GoBindings.Proofs.Outcomes
import GoBindings.Schema.Build

/-!
# Numbered message trees

The messages of a file are numbered from the outside in, each before those nested in it. A message
finds what it holds among all entries of the file by asking for its own number.
-/

namespace GoBindings

open List Descriptor

namespace Descriptor

mutual

/-- The message and all that are nested in it. -/
def Message.withNested : Message → List Message
  | ⟨name, fields, nested, enums, extensionRanges, extensions, options, oneofs, reservedRanges,
      reservedNames⟩ =>
    ⟨name, fields, nested, enums, extensionRanges, extensions, options, oneofs, reservedRanges,
      reservedNames⟩ :: Message.listWithNested nested

def Message.listWithNested : List Message → List Message
  | [] => []
  | m :: ms => m.withNested ++ Message.listWithNested ms

end

mutual

/-- A message and all that are nested in it, each with the names that lead to it. -/
def Message.scoped (outer : List String) : Message → List (List String × Message)
  | ⟨name, fields, nested, enums, extensionRanges, extensions, options, oneofs, reservedRanges,
      reservedNames⟩ =>
    (outer ++ [name.getD ""], ⟨name, fields, nested, enums, extensionRanges, extensions, options,
      oneofs, reservedRanges, reservedNames⟩) :: Message.listScoped (outer ++ [name.getD ""]) nested

def Message.listScoped (outer : List String) : List Message → List (List String × Message)
  | [] => []
  | m :: ms => m.scoped outer ++ Message.listScoped outer ms

end

def File.allMessages (f : File) : List Message := Message.listWithNested f.messages

end Descriptor

namespace Schema

open Descriptor (Message)

/-- Where a declaration stands: what is declared, in which message, at which place there, and
under which name. -/
structure Place (δ : Type) where
  proto : δ
  parent : Option MessageId
  index : Nat
  typeName : List String

/-- The places of declarations that stand next to each other, the first at place `index`. -/
def Place.row {δ : Type} (name : δ → Option String) (parent : Option MessageId)
    (scope : List String) (index : Nat) (ds : List δ) : List (Place δ) :=
  (ds.zipIdx index).map fun d => ⟨d.1, parent, d.2, scope ++ [(name d.1).getD ""]⟩

def MessageNode.place (m : MessageNode) : Place Message := ⟨m.proto, m.parent, m.index, m.typeName⟩

def EnumNode.place (e : EnumNode) : Place Enum :=
  ⟨e.proto, e.parent, e.index, e.typeName⟩

/-- The names around what a message holds; none at the top level. -/
def scopeOf (parent : Option MessageEntry) : List String :=
  (parent.map (·.2.typeName)).getD []

theorem MessageNode.place_of (c : Context) (parent : Option MessageEntry) (index : Nat)
    (m : Message) : (MessageNode.of c parent index m).place =
      ⟨m, parent.map (·.1), index, scopeOf parent ++ [m.name.getD ""]⟩ := by
  cases parent <;> rfl

theorem messageNodes_eq (c : Context) (parent : Option MessageEntry)
    (next index : Nat) (m : Message) : messageNodes c parent next index m =
      (⟨next⟩, MessageNode.of c parent index m) :: messageListNodes c
        (some (⟨next⟩, MessageNode.of c parent index m)) (next + 1) 0 m.nested := by
  cases m
  rw [messageNodes]

section Induction

variable {c : Context}
  {P : Option MessageEntry → Nat → Nat → List Message →
    List MessageEntry → Prop}
  (nil : ∀ parent next index, P parent next index [] [])
  (cons : ∀ parent next index m ms nodes rest,
    P (some (⟨next⟩, MessageNode.of c parent index m)) (next + 1) 0 m.nested nodes →
    P parent (next + (nodes.length + 1)) (index + 1) ms rest →
    P parent next index (m :: ms) ((⟨next⟩, MessageNode.of c parent index m) :: (nodes ++ rest)))

include nil cons

/-- What holds of no entries, and of a message with those nested in it before those next to it,
holds of all entries. -/
theorem messageListNodes_induction : (ms : List Message) → ∀ parent next index,
    P parent next index ms (messageListNodes c parent next index ms)
  | [] => nil
  | ⟨_, _, nested, _, _, _, _, _, _, _⟩ :: ms => fun parent next index => by
    simp only [messageListNodes]
    rw [messageNodes_eq, cons_append, length_cons]
    exact cons _ _ _ _ _ _ _ (messageListNodes_induction nested _ _ _)
      (messageListNodes_induction ms _ _ _)

end Induction

/-- The path of a message in a file with the given package, and whether it is a group, as the
message around it says. -/
def MessageNode.situation (package : String) (parent : Option MessageNode) (m : MessageNode) :
    List Nat × Bool :=
  (parent.elim [4] (·.path ++ [3]) ++ [m.index],
    parent.any fun p => hasGroup p.proto (qualifiedName package m.typeName))

/-- A message says where it stands in the given one. -/
def MessageNode.StandsIn (package : String) (parent : Option MessageEntry)
    (m : MessageNode) : Prop :=
  m.parent = parent.map (·.1) ∧ (m.path, m.group) = m.situation package (parent.map (·.2))

/-- A message is at the top of the trees, or nested in one of them with a lower number. -/
def Rooted (parent : Option MessageEntry) (next : Nat)
    (e : MessageEntry) : Prop :=
  e.2.parent = parent.map (·.1) ∨
    ∃ p, e.2.parent = some p ∧ next ≤ p.index ∧ p.index < e.1.index

/-- Every message of a list finds what it holds. -/
def Finds (es : List MessageEntry) : Prop :=
  ∀ e ∈ es, (es.filter (fun x => x.2.parent = some e.1)).map (·.2.place) =
    Place.row (·.name) (some e.1) e.2.typeName 0 e.2.proto.nested

/-- What is known of the entries of messages next to each other, and of all that are nested in
them. -/
@[mk_iff] structure Forest (c : Context) (parent : Option MessageEntry)
    (next index : Nat) (ms : List Message) (nodes : List MessageEntry) : Prop where
  ids : nodes.map (·.1) = (range' next nodes.length).map MessageId.mk
  protos : nodes.map (·.2.proto) = Message.listWithNested ms
  names : nodes.map (fun e => (e.2.typeName, e.2.proto)) = Message.listScoped (scopeOf parent) ms
  file : ∀ e ∈ nodes, e.2.file = c.file
  rooted : ∀ e ∈ nodes, Rooted parent next e
  stands : ∀ e ∈ nodes, e.2.StandsIn c.package parent ∨
    ∃ p ∈ nodes, e.2.StandsIn c.package (some p)
  top : (∀ p ∈ parent, p.1.index < next) →
    (nodes.filter fun e => e.2.parent = parent.map (·.1)).map (·.2.place) =
      Place.row (·.name) (parent.map (·.1)) (scopeOf parent) index ms
  finds : (∀ p ∈ parent, p.1.index < next) → Finds nodes

private theorem withExtensions_map {α : Type} {f : MessageEntry → α}
    (hf : ∀ id m ids, f (id, { m with extensions := ids }) = f (id, m)) (next : Nat)
    (es : List MessageEntry) : (withExtensions next es).map f = es.map f := by
  induction es generalizing next with
  | nil => rfl
  | cons e es ih =>
    obtain ⟨id, m⟩ := e
    simp only [withExtensions, map_cons, ih, hf]

namespace Forest

variable {c : Context} {parent : Option MessageEntry} {next index : Nat} {m : Message}
  {ms : List Message} {nodes rest : List MessageEntry}

theorem bounds (h : Forest c parent next index ms nodes) {e : MessageEntry}
    (he : e ∈ nodes) : next ≤ e.1.index ∧ e.1.index < next + nodes.length := by
  have hmem : e.1 ∈ nodes.map (·.1) := mem_map_of_mem he
  rw [h.ids] at hmem
  obtain ⟨n, hn, heq⟩ := mem_map.mp hmem
  rw [← heq]
  exact mem_range'_1.mp hn

private theorem filter_eq_nil (h : Forest c parent next index ms nodes) {id : MessageId}
    (hparent : parent.map (·.1) ≠ some id)
    (hid : id.index < next ∨ next + nodes.length ≤ id.index) :
    nodes.filter (fun e => e.2.parent = some id) = [] := by
  rw [filter_eq_nil_iff]
  intro e he heq
  have heq : e.2.parent = some id := by simpa using heq
  have hbound := (h.bounds he).2
  rcases h.rooted e he with hroot | ⟨p, hp, hle, hlt⟩
  · exact hparent (hroot ▸ heq)
  · cases hp.symm.trans heq
    omega

private theorem standsIn_of (c : Context) (parent : Option MessageEntry)
    (index : Nat) (m : Message) : (MessageNode.of c parent index m).StandsIn c.package parent := by
  cases parent with
  | none => exact ⟨rfl, rfl⟩
  | some p => exact ⟨rfl, Prod.ext (append_cons p.2.path 3 [index]) rfl⟩

private theorem nil : Forest c parent next index [] [] where
  ids := rfl
  protos := rfl
  names := rfl
  file := by simp
  rooted := by simp
  stands := by simp
  top _ := rfl
  finds _ := by simp [Finds]

private theorem cons
    (hnodes : Forest c (some (⟨next⟩, MessageNode.of c parent index m)) (next + 1) 0 m.nested nodes)
    (hrest : Forest c parent (next + (nodes.length + 1)) (index + 1) ms rest) :
    Forest c parent next index (m :: ms)
      ((⟨next⟩, MessageNode.of c parent index m) :: (nodes ++ rest)) := by
  have hparent : (MessageNode.of c parent index m).parent = parent.map (·.1) := by
    cases parent <;> rfl
  have hproto : (MessageNode.of c parent index m).proto = m := by cases parent <;> rfl
  have hbefore (h : ∀ p ∈ parent, p.1.index < next) :
      ∀ p ∈ parent, p.1.index < next + (nodes.length + 1) :=
    fun p hp => Nat.lt_of_lt_of_le (h p hp) (Nat.le_add_right _ _)
  have hne (h : ∀ p ∈ parent, p.1.index < next) {id : MessageId} (hid : next ≤ id.index) :
      parent.map (·.1) ≠ some id := by
    intro heq
    obtain ⟨p, hp, rfl⟩ := Option.map_eq_some_iff.mp heq
    exact absurd (h p hp) (by omega)
  have hself : ∀ p ∈ some (MessageId.mk next, MessageNode.of c parent index m),
      p.1.index < next + 1 := by simp
  refine ⟨?_, ?_, ?_, ?_, ?_, ?_, fun h => ?_, fun h e he => ?_⟩
  · rw [map_cons, map_append, hnodes.ids, hrest.ids, length_cons, length_append, range'_succ,
      map_cons, ← range'_append_1, map_append, Nat.add_assoc, Nat.add_comm 1]
  · rw [map_cons, map_append, hnodes.protos, hrest.protos, hproto, Message.listWithNested]
    cases m
    rfl
  · rw [map_cons, map_append, hnodes.names, hrest.names, Message.listScoped]
    cases m
    cases parent <;> rfl
  · rw [forall_mem_cons, forall_mem_append]
    exact ⟨by cases parent <;> rfl, hnodes.file, hrest.file⟩
  · rw [forall_mem_cons, forall_mem_append]
    refine ⟨.inl hparent, fun e he => .inr ?_, fun e he => ?_⟩
    · rcases hnodes.rooted e he with hroot | ⟨p, hp, hle, hlt⟩
      · exact ⟨⟨next⟩, hroot, Nat.le_refl _, (hnodes.bounds he).1⟩
      · exact ⟨p, hp, by omega, hlt⟩
    · exact (hrest.rooted e he).imp_right fun ⟨p, hp, hle, hlt⟩ => ⟨p, hp, by omega, hlt⟩
  · rw [forall_mem_cons, forall_mem_append]
    refine ⟨.inl (standsIn_of c parent index m), fun e he => .inr ?_, fun e he => ?_⟩
    · rcases hnodes.stands e he with hstands | ⟨p, hp, hstands⟩
      · exact ⟨_, mem_cons_self, hstands⟩
      · exact ⟨p, by simp [hp], hstands⟩
    · exact (hrest.stands e he).imp_right fun ⟨p, hp, hstands⟩ => ⟨p, by simp [hp], hstands⟩
  · have hnested : nodes.filter (fun e => e.2.parent = parent.map (·.1)) = [] := by
      cases parent with
      | none =>
        rw [filter_eq_nil_iff]
        intro e he
        rcases hnodes.rooted e he with hroot | ⟨p, hp, -⟩ <;> simp [*]
      | some p =>
        have hlt := h p rfl
        refine hnodes.filter_eq_nil (fun heq => ?_) (.inl (Nat.lt_succ_of_lt hlt))
        have hnext : next = p.1.index := congrArg MessageId.index (Option.some.inj heq)
        omega
    rw [filter_cons_of_pos (by simp [hparent]), filter_append, hnested, nil_append, map_cons,
      hrest.top (hbefore h), MessageNode.place_of]
    rfl
  · -- an entry finds its own in its own part only
    rw [mem_cons, mem_append] at he
    rw [filter_cons, filter_append]
    rcases he with rfl | he | he
    · rw [if_neg (by simpa [hparent] using hne h (Nat.le_refl _)),
        hrest.filter_eq_nil (hne h (Nat.le_refl _)) (.inl (Nat.lt_add_of_pos_right (by simp))),
        append_nil, hproto]
      exact hnodes.top hself
    · obtain ⟨hlow, hhigh⟩ := hnodes.bounds he
      rw [if_neg (by simpa [hparent] using hne h (by omega)),
        hrest.filter_eq_nil (hne h (by omega)) (by omega), append_nil]
      exact hnodes.finds hself e he
    · obtain ⟨hlow, hhigh⟩ := hrest.bounds he
      rw [if_neg (by simpa [hparent] using hne h (by omega)),
        hnodes.filter_eq_nil (fun heq => ?_) (by omega), nil_append]
      · exact hrest.finds (hbefore h) e he
      · have hnext : next = e.1.index := congrArg MessageId.index (Option.some.inj heq)
        omega

theorem withExtensions (h : Forest c parent next index ms nodes) (k : Nat) :
    Forest c parent next index ms (withExtensions k nodes) := by
  let bare (e : MessageEntry) : MessageEntry :=
    (e.1, { e.2 with extensions := [] })
  have hbare (nodes : List MessageEntry) :
      Forest c parent next index ms (nodes.map bare) ↔ Forest c parent next index ms nodes := by
    simp only [forest_iff, Finds, map_map, filter_map, length_map, mem_map,
      exists_exists_and_eq_and, forall_exists_index, and_imp, forall_apply_eq_imp_iff₂]
    rfl
  rw [← hbare, withExtensions_map fun _ _ _ => rfl, hbare]
  exact h

end Forest

theorem messageListNodes_forest (c : Context) (parent : Option MessageEntry)
    (next index : Nat) (ms : List Message) :
    Forest c parent next index ms (messageListNodes c parent next index ms) :=
  messageListNodes_induction (fun _ _ _ => .nil) (fun _ _ _ _ _ _ _ => .cons) ms parent next index

section Holdings

variable {c : Context} {parent : Option MessageEntry} {index : Nat}

theorem withExtensions_numbers (next : Nat) (es : List MessageEntry) :
    (withExtensions next es).flatMap (·.2.extensions) =
      (range' next ((withExtensions next es).flatMap fun m =>
        extensionNodes c (some m) m.2.proto.extensions).length).map ExtensionId.mk := by
  induction es generalizing next with
  | nil => rfl
  | cons e es ih =>
    obtain ⟨id, m⟩ := e
    have hlength (m : MessageEntry) (fields : List Field) :
        (extensionNodes c (some m) fields).length = fields.length := by simp [extensionNodes]
    simp only [withExtensions, flatMap_cons, length_append, hlength, ih,
      ← range'_append_1, map_append]

theorem map_range'_getD {α : Type} (l block rest : List α) (a : α) :
    (range' l.length block.length).map (fun n => (l ++ (block ++ rest)).getD n a) = block := by
  refine ext_getElem (by simp) fun i hi hi' => ?_
  simp only [getElem_map, getElem_range', Nat.one_mul, getD_eq_getElem?_getD]
  rw [getElem?_append_right (Nat.le_add_right _ _), Nat.add_sub_cancel_left,
    getElem?_append_left hi', getElem?_eq_getElem hi']
  rfl

theorem map_withExtensions (l rest : List ExtensionNode) (es : List MessageEntry)
    {e : MessageEntry} (he : e ∈ withExtensions l.length es) :
    e.2.extensions.map (fun x => (l ++ ((withExtensions l.length es).flatMap (fun m =>
      extensionNodes c (some m) m.2.proto.extensions) ++ rest)).getD x.index default) =
        extensionNodes c (some e) e.2.proto.extensions := by
  induction es generalizing l with
  | nil => simp [withExtensions] at he
  | cons e' es ih =>
    obtain ⟨id, m⟩ := e'
    simp only [withExtensions, flatMap_cons, append_assoc] at he ⊢
    generalize hm : MessageNode.mk _ _ _ _ _ _ _ _ _ _ _ = m' at he ⊢
    have hproto : m'.proto = m.proto := by rw [← hm]
    have hlength : (extensionNodes c (some (id, m')) m.proto.extensions).length =
        m.proto.extensions.length := by simp [extensionNodes]
    rcases mem_cons.mp he with rfl | he
    · have hids : m'.extensions =
          (range' l.length m.proto.extensions.length).map ExtensionId.mk := by rw [← hm]
      rw [hids, map_map, ← hlength, hproto]
      exact map_range'_getD l _ _ default
    · rw [← hlength, ← length_append] at he ⊢
      rw [← append_assoc]
      exact ih (l ++ extensionNodes c (some (id, m')) m.proto.extensions) he

theorem enumNodes_place (c : Context) (parent : Option MessageEntry) (index : Nat)
    (es : List Enum) : (enumNodes c parent index es).map EnumNode.place =
      Place.row (·.name) (parent.map (·.1)) (scopeOf parent) index es := by
  induction es generalizing index with
  | nil => rfl
  | cons e es ih =>
    simp only [enumNodes, map_cons, ih]
    cases parent <;> rfl

theorem enumNodes_spec (c : Context) (parent : Option MessageEntry) (index : Nat)
    (es : List Enum) : ∀ e ∈ enumNodes c parent index es,
      e.file = c.file ∧ e.parent = parent.map (·.1) := by
  induction es generalizing index with
  | nil => simp [enumNodes]
  | cons e es ih =>
    simp only [enumNodes, forall_mem_cons]
    exact ⟨by cases parent <;> exact ⟨rfl, rfl⟩, ih _⟩

end Holdings

end Schema

end GoBindings
