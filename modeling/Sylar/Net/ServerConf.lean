import Sylar.Config.Casts

/-!
# The configuration of a server

Twelve fields are written as scalars and a list of them, and read back as such. The
arguments are written as a map and read as a text, so the reader finds no text and
takes the empty one.
-/

namespace Sylar.Net

open Sylar.Lib Sylar.Config
open Sylar.Http (Text ascii)

structure TcpServerConf where
  address : List Text
  keepalive : Int32
  timeout : Int32
  ssl : Int32
  id : Text
  type : Text
  name : Text
  certFile : Text
  keyFile : Text
  acceptWorker : Text
  ioWorker : Text
  processWorker : Text
  args : StringMap

namespace TcpServerConf

/-- The initial values of the members. -/
def new : TcpServerConf where
  address := []
  keepalive := 0
  timeout := 1000 * 2 * 60
  ssl := 0
  id := []
  type := ascii "http"
  name := []
  certFile := []
  keyFile := []
  acceptWorker := []
  ioWorker := []
  processWorker := []
  args := .empty

/-- `LexicalCast<TcpServerConf, std::string>`. -/
def toNode (yaml : Yaml) (conf : TcpServerConf) : Except YamlError Config.Node := do
  let args ← conf.args.toNode yaml
  return .ofFields <|
    [(ascii "id", .scalar conf.id),
      (ascii "type", .scalar conf.type),
      (ascii "name", .scalar conf.name),
      (ascii "keepalive", .ofInt conf.keepalive),
      (ascii "timeout", .ofInt conf.timeout),
      (ascii "ssl", .ofInt conf.ssl),
      (ascii "cert_file", .scalar conf.certFile),
      (ascii "key_file", .scalar conf.keyFile),
      (ascii "accept_worker", .scalar conf.acceptWorker),
      (ascii "io_worker", .scalar conf.ioWorker),
      (ascii "process_worker", .scalar conf.processWorker),
      (ascii "args", args)] ++
    if conf.address = [] then []
    else [(ascii "address", .ofItems (conf.address.map .scalar))]

/-- `LexicalCast<std::string, TcpServerConf>`. -/
def fromNode (yaml : Yaml) (node : Config.Node) : Except YamlError TcpServerConf := do
  let conf := new
  let id ← node.getStringOr (ascii "id") conf.id
  let type ← node.getStringOr (ascii "type") conf.type
  let keepalive ← node.getIntOr (ascii "keepalive") conf.keepalive
  let timeout ← node.getIntOr (ascii "timeout") conf.timeout
  let name ← node.getStringOr (ascii "name") conf.name
  let ssl ← node.getIntOr (ascii "ssl") conf.ssl
  let certFile ← node.getStringOr (ascii "cert_file") conf.certFile
  let keyFile ← node.getStringOr (ascii "key_file") conf.keyFile
  let acceptWorker ← node.needString (ascii "accept_worker")
  let ioWorker ← node.needString (ascii "io_worker")
  let processWorker ← node.needString (ascii "process_worker")
  let args ← StringMap.fromText yaml (← node.getStringOr (ascii "args") [])
  let address ←
    match ← node.get (ascii "address") with
    | none => pure []
    | some address => address.items.mapM Config.Node.asString
  return ⟨address, keepalive, timeout, ssl, id, type, name, certFile, keyFile, acceptWorker,
    ioWorker, processWorker, args⟩

theorem mapM_asString (texts : List Text) :
    (texts.map Config.Node.scalar).mapM Config.Node.asString = .ok texts := by
  induction texts with
  | nil => rfl
  | cons text texts ih =>
      rw [List.map_cons, List.mapM_cons]
      exact bind_of_ok rfl (bind_of_ok ih rfl)

/-- All fields but the arguments are read back. -/
theorem fromNode_toNode {yaml : Yaml} {conf : TcpServerConf} {node : Config.Node}
    (h : conf.toNode yaml = .ok node) :
    fromNode yaml node = .ok { conf with args := .empty } := by
  obtain ⟨args, hargs, hnode⟩ := bind_eq_ok h
  cases hnode
  rw [fromNode]
  refine bind_of_ok (Config.Node.getStringOr_of_lookup rfl _) ?_
  refine bind_of_ok (Config.Node.getStringOr_of_lookup rfl _) ?_
  refine bind_of_ok (Config.Node.getIntOr_of_lookup rfl _) ?_
  refine bind_of_ok (Config.Node.getIntOr_of_lookup rfl _) ?_
  refine bind_of_ok (Config.Node.getStringOr_of_lookup rfl _) ?_
  refine bind_of_ok (Config.Node.getIntOr_of_lookup rfl _) ?_
  refine bind_of_ok (Config.Node.getStringOr_of_lookup rfl _) ?_
  refine bind_of_ok (Config.Node.getStringOr_of_lookup rfl _) ?_
  refine bind_of_ok (Config.Node.needString_of_lookup rfl) ?_
  refine bind_of_ok (Config.Node.needString_of_lookup rfl) ?_
  refine bind_of_ok (Config.Node.needString_of_lookup rfl) ?_
  have htext : args.asStringOr [] = [] := StringMap.asStringOr_toNode hargs []
  refine bind_of_ok (congrArg Except.ok htext) (bind_of_ok (StringMap.fromText_nil yaml) ?_)
  obtain ⟨address, keepalive, timeout, ssl, id, type, name, certFile, keyFile, acceptWorker,
    ioWorker, processWorker, margs⟩ := conf
  cases address with
  | nil => rfl
  | cons first rest =>
      refine bind_of_ok rfl (bind_of_ok ?_ rfl)
      exact mapM_asString (first :: rest)

/-- A configuration is read back as it was written exactly if it has no arguments. -/
theorem reads_back_iff_no_args (yaml : Yaml) (conf : TcpServerConf) :
    (conf.toNode yaml >>= fromNode yaml) = .ok conf ↔ conf.args.list = [] := by
  constructor
  · intro h
    obtain ⟨node, hnode, hread⟩ := bind_eq_ok h
    rw [fromNode_toNode hnode] at hread
    have hargs := congrArg (fun c => c.args.list) (Except.ok.inj hread)
    exact hargs.symm
  · intro h
    have hargs : conf.args = .empty := StringMap.ext h
    obtain ⟨node, hnode⟩ : ∃ node, conf.toNode yaml = .ok node := by
      rw [toNode, hargs]
      exact ⟨_, rfl⟩
    refine bind_of_ok hnode ?_
    rw [fromNode_toNode hnode, ← hargs]

/-- Every text that is not empty is a plain scalar. -/
def plainYaml : Yaml where
  load text := .ok (if text = [] then .null else .scalar text)
  dump
    | .scalar text => text
    | .null | .sequence _ | .map _ => []
  load_nil := rfl

/-- The argument `k: v` is lost. -/
theorem args_are_lost :
    let args : StringMap := ⟨[(ascii "k", ascii "v")], List.pairwise_singleton _ _⟩
    plainYaml.load (ascii "v") = .ok (.scalar (ascii "v")) ∧
      ({ new with args := args }.toNode plainYaml >>= fromNode plainYaml) = .ok new ∧
      args ≠ new.args := by
  intro args
  refine ⟨rfl, ?_, ?_⟩
  · obtain ⟨node, hnode⟩ : ∃ node, { new with args := args }.toNode plainYaml = .ok node :=
      ⟨_, rfl⟩
    exact bind_of_ok hnode (fromNode_toNode hnode)
  · intro h
    cases congrArg StringMap.list h

end TcpServerConf

end Sylar.Net
