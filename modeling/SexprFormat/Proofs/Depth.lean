import SexprFormat.Proofs.Normal
import SexprFormat.Proofs.Remarks

/-!
Scanning counts the brackets that are open, reading has a frame for each of them, and the two agree
as long as reading goes on. So a directive, which is scanned outside of brackets only, is never read
in a list. Main statement: `depth_of_scan`.
-/

namespace SexprFormat

open Token (Cursor)

namespace Frames

@[simp] theorem length_lists_update (fs : Frames) (g : Frame → Frame) :
    (fs.update g).lists.length = fs.lists.length := by
  unfold update
  split <;> simp_all

end Frames

namespace Reading

/-- One token opens or closes a list for reading as it does for the cursor. A bracket that closes
nothing is the one case where the cursor would stay, and there reading stops. -/
theorem length_lists_step {r r' : Reading} {t : Token} (h : r.step t = .ok r') {cur : Cursor}
    (agree : r.frames.lists.length = cur.depth) :
    r'.frames.lists.length = ((cur.nest t.kind).pass t.text).depth := by
  rw [Cursor.depth_pass]
  by_cases eof : t.kind = .eof
  · have same : r'.frames = r.frames := by
      simp only [step, ignores, accept, eof, bind, Except.bind, pure, Except.pure] at h
      cases h
      rfl
    rw [same, agree, eof]
    rfl
  · obtain ⟨l, around, rfl⟩ := r.exists_within
    obtain ⟨plain, rfl⟩ | ⟨opening, rfl⟩ | ⟨_, _, _, rfl, closing, _, _, _, rfl⟩ := step_cases h eof
    · have nest : cur.nest t.kind = cur := by
        cases hk : t.kind <;> simp_all [Token.isMark, Token.isTrivia, Token.isLeaf, Cursor.nest]
      rw [nest, ← agree]
      cases around <;> rfl
    · rw [opening, Cursor.nest, ← agree]
      rfl
    · rw [closing, Cursor.nest, ← agree]
      simp [Level.within, Frames.fill]

theorem length_lists_foldlM {ts : List Token} {r r' : Reading} (h : ts.foldlM step r = .ok r')
    {cur : Cursor} (agree : r.frames.lists.length = cur.depth) :
    r'.frames.lists.length = (cur.passAll ts).depth := by
  induction ts generalizing r cur with
  | nil =>
    cases h
    exact agree
  | cons t ts ih =>
    rw [List.foldlM_cons] at h
    obtain ⟨next, hs, h⟩ := exists_of_bind_eq_ok h
    exact ih h (length_lists_step hs agree)

end Reading

namespace Token

/-- Outside of brackets is where directives are scanned. -/
theorem depth_of_directive {file? : Option String} {source : List Char} {before after : List Token}
    {t : Token} (split : scan file? source = before ++ t :: after) (ht : t.kind = .directive)
    (hafter : after ≠ []) : (Cursor.passAll {} before).depth = 0 := by
  have read := readAt_of_scanFrom split hafter
  rcases (read.directive ht).2.2.2 with first | ⟨outside, _⟩
  · cases before with
    | nil => rfl
    | cons u before =>
      have start : u.ReadAt {} ((before ++ t :: after).flatMap (·.text)) :=
        (scanFrom_eq_cons split (by simp)).1
      have size := List.length_pos_of_ne_nil start.text_ne_nil
      have grows := Form.offset_le_passAll ((({} : Cursor).nest u.kind).pass u.text) before
      rw [Cursor.offset_pass] at grows
      change (Cursor.passAll ((({} : Cursor).nest u.kind).pass u.text) before).offset = 0 at first
      omega
  · exact outside

end Token

namespace Node

mutual

/-- What is spelled out of a tree is spelled out of all that is in it. -/
theorem spelled_of_mem_subtrees {W : Word → Prop} {node : Node} : ∀ (root : Node) (inList : Bool),
    root.Spelled W inList → node ∈ root.subtrees → ∃ inList', node.Spelled W inList'
  | atom .., inList, h, hn | string .., inList, h, hn | comment .., inList, h, hn
  | directive .., inList, h, hn | blank _, inList, h, hn => by
    obtain rfl := List.mem_singleton.mp hn
    exact ⟨inList, h⟩
  | quoted _ _ _ inner, inList, h, hn => by
    rw [subtrees, List.mem_cons] at hn
    rcases hn with rfl | hn
    · exact ⟨inList, h⟩
    · exact spelled_of_mem_subtrees inner inList h.2.2.1 hn
  | list _ _ children, inList, h, hn => by
    rw [subtrees, List.mem_cons] at hn
    rcases hn with rfl | hn
    · exact ⟨inList, h⟩
    · exact spelled_of_mem_subtreesAll children true h hn
  | program .., _, h, _ | unknown .., _, h, _ => h.elim

theorem spelled_of_mem_subtreesAll {W : Word → Prop} {node : Node} :
    ∀ (nodes : List Node) (inList : Bool), SpelledAll W inList nodes → node ∈ subtreesAll nodes →
    ∃ inList', node.Spelled W inList'
  | [], _, _, hn => by simp [subtreesAll] at hn
  | child :: rest, inList, h, hn => by
    rw [subtreesAll, List.mem_append] at hn
    rcases hn with hn | hn
    · exact spelled_of_mem_subtrees child inList h.1 hn
    · exact spelled_of_mem_subtreesAll rest inList h.2 hn

end

/-- A directive, or a comment that has the text of one. -/
def readsAsDirective : Node → Bool
  | directive _ _ _ => true
  | comment _ s _ block => (Word.remark block s).kind = .directive
  | _ => false

/-- No list holds what a directive was made into, so the program does. -/
theorem mem_of_readsAsDirective {file? : Option String} {source : List Char} {loc : Location}
    {nodes : List Node} (h : parse file? source = .ok (.program loc nodes)) {node : Node}
    (hn : node ∈ subtreesAll nodes) (hd : node.readsAsDirective) :
    node ∈ nodes ∧ ∀ loc shape children, .list loc shape children ∈ subtreesAll nodes →
      node ∉ children := by
  have spelled : SpelledAll (fun _ => True) false nodes :=
    spelled_of_parse h fun _ _ _ _ _ => trivial
  obtain ⟨_, _, same, read⟩ := parse_eq_ok h
  cases same
  have settled := settled_of_ofTokens read
  have notInList : ∀ loc shape children, .list loc shape children ∈ subtreesAll nodes →
      node ∉ children := by
    intro loc shape children hl hc
    obtain ⟨_, inside⟩ := spelled_of_mem_subtreesAll nodes false spelled hl
    have own : node.Spelled (fun _ => True) true := spelled_of_mem inside hc
    cases node with
    | directive => exact absurd own.2 (by decide)
    | comment _ s _ block => exact own.2 rfl (of_decide_eq_true hd)
    | atom | string | quoted | list | blank | program | unknown => cases hd
  refine ⟨?_, notInList⟩
  rcases parent_of_mem_subtreesAll nodes hn with here | ⟨parent, hp, below⟩
  · exact here
  · cases parent with
    | list => exact absurd below (notInList _ _ _ hp)
    | quoted _ _ _ inner =>
      obtain rfl := List.mem_singleton.mp below
      have datum : node.isDatum := settled _ hp
      cases node <;> simp_all [isDatum, readsAsDirective]
    | program => exact (settled _ hp).elim
    | atom | string | comment | directive | blank | unknown => cases below

end Node

theorem Token.readsAsDirective_of_makes {t : Token} {cur : Cursor} {rest : List Char} {node : Node}
    (h : t.ReadAt cur rest) (ht : t.kind = .directive) (makes : t.Makes node) :
    node.readsAsDirective := by
  obtain ⟨_, first, trimmed, _⟩ := h.directive ht
  rcases makes with ⟨_, rfl⟩ | ⟨attachment, rfl⟩
  · rfl
  · obtain ⟨s, text⟩ := List.head?_eq_some_iff.mp first
    rw [trimmed, text, ht]
    exact decide_eq_true (ReadAt.kind_remark_hash s)

/-- Reading has got through what comes before a token of a source that parses. -/
theorem Reading.exists_of_parse {file? : Option String} {source : List Char} {tree : Node}
    (h : Node.parse file? source = .ok tree) {before after : List Token} {t : Token}
    (split : Token.scan file? source = before ++ t :: after) (ht : t.kind ≠ .eof) :
    after ≠ [] ∧ ∃ r, before.foldlM step {} = .ok r := by
  obtain ⟨loc, forms, eof, wf, scan, isEof, _⟩ := Node.parse_forms h
  have all := Form.foldlM_step_program wf
  have different : t ≠ eof := by
    rintro rfl
    exact ht isEof
  rcases List.append_eq_append_iff.mp (split.symm.trans scan) with ⟨rest, front, back⟩
    | ⟨rest, _, back⟩
  · constructor
    · rintro rfl
      cases rest <;> simp_all
    · rw [front, List.foldlM_append] at all
      obtain ⟨r, read, _⟩ := exists_of_bind_eq_ok all
      exact ⟨r, read⟩
  · cases rest <;> simp_all

/-- The count of open brackets that scanning keeps is the number of lists that are open in reading,
behind every token up to which reading goes on. In a source that parses, every directive is met
outside of all lists, and whatever it is made into belongs to the program and to no list. -/
theorem depth_of_scan (file? : Option String) (source : List Char) :
    (∀ before after r, Token.scan file? source = before ++ after →
      before.foldlM Reading.step {} = .ok r →
      (after ≠ [] →
        Token.scanFrom file? (Cursor.passAll {} before) (after.flatMap (·.text)) = after) ∧
        r.frames.lists.length = (Cursor.passAll {} before).depth) ∧
    ∀ loc nodes, Node.parse file? source = .ok (.program loc nodes) →
      (∀ before t after, Token.scan file? source = before ++ t :: after → t.kind = .directive →
        ∃ r, before.foldlM Reading.step {} = .ok r ∧ r.frames.lists = []) ∧
      ∀ node ∈ Node.subtreesAll nodes,
        (node.isDirective ∨ ∃ t ∈ Token.scan file? source, t.kind = .directive ∧ t.Makes node) →
        node ∈ nodes ∧ ∀ loc shape children, .list loc shape children ∈ Node.subtreesAll nodes →
          node ∉ children := by
  constructor
  · intro before after r split read
    exact ⟨Token.scanFrom_of_append split, Reading.length_lists_foldlM read rfl⟩
  · intro loc nodes parsed
    constructor
    · intro before t after split ht
      obtain ⟨inner, r, read⟩ := Reading.exists_of_parse parsed split (by simp [ht])
      have agree : r.frames.lists.length = (Cursor.passAll {} before).depth :=
        Reading.length_lists_foldlM read rfl
      rw [Token.depth_of_directive split ht inner] at agree
      exact ⟨r, read, List.length_eq_zero_iff.mp agree⟩
    · intro node hn made
      apply Node.mem_of_readsAsDirective parsed hn
      rcases made with directive | ⟨t, ht, kind, makes⟩
      · cases node <;> simp_all [Node.isDirective, Node.readsAsDirective]
      · obtain ⟨before, after, split⟩ := List.append_of_mem ht
        obtain ⟨inner, _⟩ := Reading.exists_of_parse parsed split (by simp [kind])
        exact Token.readsAsDirective_of_makes (Token.readAt_of_scanFrom split inner) kind makes

theorem depth_of_scan_late :
    ∃ before t after r, Token.scan none "#!r\n(a [b])\n#lang x\n(c)".toList = before ++ t :: after ∧
      t.kind = .directive ∧ before.any (·.kind = .opening) ∧
      before.foldlM Reading.step {} = .ok r ∧ r.frames.lists = [] := by
  have late : ((Token.scan none "#!r\n(a [b])\n#lang x\n(c)".toList).drop 10).head?.any
      (·.kind = .directive) := by cbv
  have lists : ((Token.scan none "#!r\n(a [b])\n#lang x\n(c)".toList).take 10).any
      (·.kind = .opening) := by cbv
  have parses : (Node.parse none "#!r\n(a [b])\n#lang x\n(c)".toList).isOk := by cbv
  cases parsed : Node.parse none "#!r\n(a [b])\n#lang x\n(c)".toList with
  | error e =>
    rw [parsed] at parses
    cases parses
  | ok tree =>
    obtain ⟨loc, nodes, rfl, _⟩ := Node.parse_eq_ok parsed
    have split := List.take_append_drop 10 (Token.scan none "#!r\n(a [b])\n#lang x\n(c)".toList)
    cases behind : (Token.scan none "#!r\n(a [b])\n#lang x\n(c)".toList).drop 10 with
    | nil =>
      rw [behind] at late
      cases late
    | cons t after =>
      rw [behind] at late split
      have kind : t.kind = .directive := of_decide_eq_true late
      obtain ⟨r, read, outside⟩ :=
        ((depth_of_scan none _).2 loc nodes parsed).1 _ t after split.symm kind
      exact ⟨_, t, after, r, split.symm, kind, lists, read, outside⟩

end SexprFormat
