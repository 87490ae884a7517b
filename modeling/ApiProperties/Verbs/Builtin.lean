/-!
The English verbs that come with the library, in alphabetical order.
-/

set_option autoImplicit false

namespace ApiProperties

def builtinVerbs : List String :=
  ["accept", "access", "accumulate", "acquire", "activate", "adapt", "add", "adjust", "advance",
   "align", "allocate", "allow", "analyze", "animate", "announce", "append", "apply", "approve",
   "arrange", "assert", "assign", "attach", "attempt", "authenticate", "authorize", "await",
   "backup", "bake", "balance", "begin", "bind", "blend", "block", "boost", "bounce", "break",
   "bring", "broadcast", "browse", "buffer", "build", "bump", "cache", "calculate", "call",
   "cancel", "capture", "cast", "catch", "center", "change", "check", "choose", "clamp", "clean",
   "clear", "click", "clip", "clone", "close", "collapse", "collect", "combine", "commit",
   "compact", "compare", "compile", "complete", "compose", "compress", "compute", "concat",
   "configure", "confirm", "connect", "consume", "contain", "continue", "convert", "copy",
   "correct", "count", "crash", "create", "crop", "cull", "cut", "deactivate", "debug", "decay",
   "declare", "decode", "decompress", "decrease", "decrement", "decrypt", "default", "defer",
   "define", "delete", "deliver", "demote", "deny", "deploy", "dequeue", "derive", "describe",
   "deselect", "deserialize", "destroy", "detach", "detect", "determine", "disable", "discard",
   "disconnect", "dismiss", "dispatch", "display", "dispose", "distribute", "divide", "do",
   "download", "drag", "draw", "drop", "dump", "duplicate", "edit", "eject", "emit", "empty",
   "enable", "encode", "encrypt", "end", "enqueue", "ensure", "enter", "enumerate", "erase",
   "evaluate", "evict", "examine", "exchange", "exclude", "execute", "exit", "expand", "expect",
   "expire", "explode", "export", "expose", "extend", "extract", "fade", "fail", "fetch", "fill",
   "filter", "finalize", "find", "finish", "fire", "fit", "fix", "flatten", "flip", "flush",
   "focus", "fold", "follow", "force", "format", "forward", "free", "freeze", "generate", "get",
   "give", "grab", "grant", "grow", "guess", "halt", "handle", "has", "hash", "help", "hide",
   "highlight", "hold", "hook", "identify", "ignore", "import", "include", "increase",
   "increment", "index", "inflate", "inherit", "init", "initialize", "inject", "insert",
   "inspect", "install", "instantiate", "interpolate", "interrupt", "intersect", "invalidate",
   "invert", "invoke", "iterate", "join", "jump", "keep", "kill", "launch", "layout", "leave",
   "lerp", "let", "lift", "limit", "link", "list", "listen", "load", "localize", "lock", "log",
   "lookup", "loop", "lower", "make", "manage", "map", "mark", "mask", "match", "measure",
   "merge", "migrate", "minimize", "mix", "modify", "mount", "move", "multiply", "mute",
   "navigate", "negate", "normalize", "notify", "obtain", "offset", "open", "optimize", "order",
   "output", "overwrite", "pack", "paint", "parse", "paste", "pause", "perform", "pick", "pin",
   "place", "play", "plot", "pop", "populate", "post", "precompute", "predict", "prepare",
   "prepend", "present", "preserve", "press", "prevent", "print", "process", "produce", "profile",
   "project", "promote", "prompt", "propagate", "protect", "provide", "prune", "publish", "pull",
   "pump", "purge", "push", "put", "query", "queue", "quit", "raise", "randomize", "reach",
   "read", "rebuild", "recalculate", "receive", "recompute", "record", "recover", "redirect",
   "redo", "reduce", "refresh", "register", "reject", "release", "reload", "remap", "remove",
   "rename", "render", "reorder", "repair", "repeat", "replace", "reply", "report", "request",
   "require", "reserve", "reset", "resize", "resolve", "restart", "restore", "resume", "retain",
   "retrieve", "retry", "return", "reverse", "revert", "rewind", "rotate", "round", "run",
   "sample", "save", "scale", "scan", "schedule", "scroll", "search", "seek", "select", "send",
   "separate", "serialize", "serve", "set", "share", "shift", "show", "shrink", "shuffle", "shut",
   "shutdown", "simplify", "simulate", "skip", "sleep", "slice", "snap", "solve", "sort", "spawn",
   "split", "start", "step", "stop", "store", "stream", "stretch", "strip", "submit", "subscribe",
   "substitute", "subtract", "suggest", "suspend", "swap", "switch", "sync", "synchronize",
   "take", "tap", "terminate", "test", "throw", "tick", "toggle", "touch", "trace", "track",
   "transfer", "transform", "translate", "transpose", "traverse", "trigger", "trim", "truncate",
   "try", "turn", "unbind", "unblock", "undo", "uninstall", "unload", "unlock", "unmount",
   "unpack", "unregister", "unsubscribe", "update", "upgrade", "upload", "use", "validate",
   "verify", "view", "visit", "wait", "wake", "walk", "warn", "watch", "wrap", "write", "yield",
   "zoom"]

end ApiProperties
